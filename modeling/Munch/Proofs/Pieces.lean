import Munch.Proofs.ShellRules
import Munch.Shell.Piece

/-!
# Which pieces compete

The first character of a text leaves only some forms of pieces that can begin there: blanks,
newlines and operators begin with a delimiter, comments, numbers, reserved words and words do not.
So at most places it is clear at once which piece leads.

## Main definitions

* `Piece.Opens`: the first characters of each form of piece.
* `Piece.opens`: a piece begins with one of these.
* `leads_operator_of_longest`, `leads_word_of_longest`: where operators and words are taken.
* `map_kind_tokensOf`: the kinds of the tokens of parts.
-/

namespace Munch.Shell

variable {c : Char} {v : List Char}

theorem Piece.length_pos (p : Piece) : 0 < p.text.length := by
  cases p with
  | blanks text nonempty => exact List.length_pos_iff.2 nonempty
  | newline => decide
  | comment text => simp [Piece.text]
  | redirection number op isNumber =>
    have := List.length_pos_iff.2 isNumber.1
    simp only [Piece.text, List.length_append]
    omega
  | operator op => cases op <;> decide
  | reserved r => cases r <;> decide
  | word text isWord => exact List.length_pos_iff.2 isWord.ne_nil

/-- The form of piece can begin with the character. -/
def Piece.Opens (c : Char) : Piece → Prop
  | blanks .. => c = ' ' ∨ c = '\t'
  | newline => c = '\n'
  | comment .. => c = '#'
  | redirection .. => c ∈ digits.toList
  | operator _ => c ∈ "&|;<>()".toList
  | reserved _ => c ∉ delimiters.toList ∧ c ∉ digits.toList ∧ c ≠ '#'
  | word .. => c ∉ delimiters.toList

/-- A piece opens with its first character. -/
theorem Piece.opens_of_eq {q : Piece} {d : Char} {u : List Char} (same : q.text = d :: u) :
    q.Opens d := by
  cases q with
  | blanks text nonempty blank => exact blank d (by simp [show text = d :: u from same])
  | newline => cases same; rfl
  | comment text => cases same; rfl
  | redirection number op isNumber =>
    obtain ⟨e, ds, rfl⟩ := List.exists_cons_of_ne_nil isNumber.1
    obtain ⟨rfl, -⟩ := List.cons_eq_cons.1 same
    exact isNumber.2 _ List.mem_cons_self
  | operator op =>
    have heads : ∀ o ∈ Operator.all,
        o.lexeme.toList.head?.all (· ∈ "&|;<>()".toList) = true := by decide
    have head := heads op op.mem_all
    rw [show op.lexeme.toList = d :: u from same] at head
    exact of_decide_eq_true (p := d ∈ "&|;<>()".toList) head
  | reserved r =>
    have heads : ∀ r ∈ Reserved.all, r.lexeme.toList.head?.all
        (fun c => c ∉ delimiters.toList ∧ c ∉ digits.toList ∧ c ≠ '#') = true := by decide
    have head := heads r r.mem_all
    rw [show r.lexeme.toList = d :: u from same] at head
    exact of_decide_eq_true (p := d ∉ delimiters.toList ∧ d ∉ digits.toList ∧ d ≠ '#') head
  | word text isWord =>
    obtain rfl : text = d :: u := same
    exact fun delimiter => not_isWord_delimiter delimiter isWord

/-- A piece at the beginning of a text opens with the first character of the text. -/
theorem Piece.opens (q : Piece) (fits : q.text <+: c :: v) : q.Opens c := by
  obtain ⟨d, u, same⟩ := List.exists_cons_of_length_pos q.length_pos
  rw [same] at fits
  obtain ⟨rfl, -⟩ := List.cons_prefix_cons.1 fits
  exact opens_of_eq same

namespace Piece.Opens

variable {q : Piece}

theorem rule_of_blank (h : q.Opens c) (blank : c = ' ' ∨ c = '\t') : q.rule = 0 := by
  rcases blank with rfl | rfl <;> cases q <;> simp_all [Piece.Opens, rule, delimiters, digits]

theorem rule_of_newline (h : q.Opens '\n') : q.rule = 1 := by
  cases q <;> simp_all [Piece.Opens, rule, delimiters, digits]

/-- A number sign opens comments and words. -/
theorem rule_of_sign (h : q.Opens '#') : q.rule = 2 ∨ q.rule = 6 := by
  cases q <;> simp_all [Piece.Opens, rule, digits]

/-- A digit opens numbers before an operator, and words. -/
theorem rule_of_digit (h : q.Opens c) (digit : c ∈ digits.toList) : q.rule = 3 ∨ q.rule = 6 := by
  have other : ∀ c ∈ digits.toList, c ≠ ' ' ∧ c ≠ '\t' ∧ c ≠ '\n' ∧ c ≠ '#' ∧
      c ∉ "&|;<>()".toList := List.all_iff_forall_prop.1 (by decide)
  obtain ⟨space, tab, newline, sign, operator⟩ := other c digit
  cases q with
  | blanks => exact (h.elim space tab).elim
  | newline => exact absurd h newline
  | comment => exact absurd h sign
  | operator => exact absurd h operator
  | reserved => exact absurd digit h.2.1
  | redirection => exact .inl rfl
  | word => exact .inr rfl

theorem rule_of_operator (h : q.Opens c) (own : c ∈ "&|;<>()".toList) : q.rule = 4 := by
  have other : ∀ c ∈ "&|;<>()".toList, c ≠ ' ' ∧ c ≠ '\t' ∧ c ≠ '\n' ∧ c ≠ '#' ∧
      c ∉ digits.toList ∧ c ∈ delimiters.toList := List.all_iff_forall_prop.1 (by decide)
  obtain ⟨space, tab, newline, sign, digit, delimiter⟩ := other c own
  cases q with
  | blanks => exact (h.elim space tab).elim
  | newline => exact absurd h newline
  | comment => exact absurd h sign
  | redirection => exact absurd h digit
  | reserved => exact absurd delimiter h.1
  | word => exact absurd delimiter h
  | operator => rfl

/-- Only these forms open with no delimiter. -/
theorem rule_of_plain (h : q.Opens c) (plain : c ∉ delimiters.toList) :
    q.rule = 2 ∧ c = '#' ∨ q.rule = 3 ∧ c ∈ digits.toList ∨ q.rule = 5 ∨ q.rule = 6 := by
  have other : ∀ c ∈ "&|;<>()".toList, c ∈ delimiters.toList :=
    List.all_iff_forall_prop.1 (by decide)
  cases q with
  | blanks => rcases h with rfl | rfl <;> exact absurd (by decide) plain
  | newline => exact absurd (h ▸ by decide) plain
  | operator o => exact absurd (other c h) plain
  | comment => exact .inl ⟨rfl, h⟩
  | redirection => exact .inr (.inl ⟨rfl, h⟩)
  | reserved => exact .inr (.inr (.inl rfl))
  | word => exact .inr (.inr (.inr rfl))

end Piece.Opens

/-! ## Where operators and words are taken -/

/-- An operator is taken where no longer one begins. -/
theorem leads_operator_of_longest {o : Operator} {rest : List Char}
    (longest : ∀ o' : Operator, o'.lexeme.toList <+: o.lexeme.toList ++ rest →
      o'.lexeme.toList.length ≤ o.lexeme.toList.length) :
    (Piece.operator o).Leads (o.lexeme.toList ++ rest) := by
  refine ⟨List.prefix_append _ _, ?_⟩
  intro q fits
  obtain ⟨c, v, first⟩ := List.exists_cons_of_length_pos (Piece.operator o).length_pos
  have own := Piece.opens_of_eq first
  rw [Piece.text] at first
  have form := (q.opens (by rwa [first] at fits)).rule_of_operator own
  cases q with
  | operator o' =>
    have := longest o' fits
    simp only [Piece.text, Piece.rule]
    omega
  | _ => cases form

/-- A redirection operator would end the word. -/
theorem IsWord.not_redirection {w ds : List Char} {o : Operator} (h : IsWord w)
    (isNumber : IsNumber ds) (redirects : o.isRedirection = true) :
    ¬ds ++ o.lexeme.toList <+: w := by
  rintro ⟨x, same⟩
  obtain ⟨d, u, lexeme, delimiter, -⟩ := SpellsRedirection.opens ⟨o, redirects, rfl⟩
  simp only [lexeme, List.append_assoc, List.cons_append] at same
  exact isNumber.isWord.not_append_delimiter delimiter (same ▸ h)

/-- The longest word is taken if it is not reserved, where comments are shorter and no number with a
redirection begins. -/
theorem leads_word_of_longest {w text : List Char} (h : LongestWord w text)
    (free : ∀ r : Reserved, w ≠ r.lexeme.toList)
    (comment : ∀ cs, '\n' ∉ cs → '#' :: cs <+: text → ('#' :: cs).length < w.length)
    (redirection : ∀ (ds : List Char) (o : Operator), IsNumber ds → o.isRedirection = true →
      ¬ds ++ o.lexeme.toList <+: text) : (Piece.word w h.isWord).Leads text := by
  refine ⟨h.fits, ?_⟩
  intro q fits
  obtain ⟨c, v, first⟩ := List.exists_cons_of_ne_nil h.isWord.ne_nil
  have plain : c ∉ delimiters.toList := fun delimiter =>
    not_isWord_delimiter delimiter (first ▸ h.isWord)
  obtain ⟨u, rfl⟩ := h.fits
  have form := (q.opens (by rwa [first] at fits)).rule_of_plain plain
  cases q with
  | comment cs inLine => exact .inl (comment cs inLine fits)
  | redirection ds o isNumber redirects => exact absurd fits (redirection ds o isNumber redirects)
  | reserved r =>
    have within := h.longest _ r.isWord fits
    have shorter : r.lexeme.toList.length ≠ w.length := fun same =>
      free r ((List.prefix_of_prefix_length_le fits h.fits within).eq_of_length same).symm
    exact .inl (Nat.lt_of_le_of_ne within shorter)
  | word w' isWord' =>
    have := h.longest w' isWord' fits
    simp only [Piece.text, Piece.rule]
    omega
  | _ => simp [Piece.rule] at form

/-! ## The kinds of tokens -/

theorem map_kind_placed (pos : Position) (kinds : List Kind) :
    (placed pos kinds).map (·.kind) = kinds := by
  induction kinds generalizing pos with
  | nil => rfl
  | cons kind kinds ih => rw [placed, List.map_cons, ih]

theorem map_kind_tokensOf (pos : Position) (parts : List Part) :
    (tokensOf pos parts).map (·.kind) = parts.flatMap Part.kinds := by
  induction parts generalizing pos with
  | nil => rfl
  | cons part parts ih =>
    rw [tokensOf, List.map_append, map_kind_placed, ih, List.flatMap_cons]

/-- A text that begins with a piece falls into a piece that leads there and parts of the rest. -/
theorem Splits.exists_leads {text : List Char} {parts : List Part} (h : Splits text parts)
    {q : Piece} (fits : q.text <+: text) : ∃ p rest more, text = p.text ++ rest ∧
      p.Leads text ∧ Splits rest more ∧ parts = .piece p :: more := by
  cases h with
  | done =>
    have := q.length_pos
    rw [List.prefix_nil.1 fits] at this
    simp at this
  | piece leads rest => exact ⟨_, _, _, rfl, leads, rest, rfl⟩
  | stray silence => exact absurd fits (silence q)

end Munch.Shell
