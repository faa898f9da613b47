import Munch.Proofs.Splitting

/-!
# Tokens written again

The tokens of a text can be written again, each followed by a blank, except that nothing may come
between a number and its redirection operator. The text so made has the same tokens. For a piece
that was taken leads again where a blank follows it: what is longer would need the blank, and what
is as long and of an earlier rule was no competitor before only if it is none at all. For words
this leaves two conditions, that they are not reserved and that no comment can take their place.

## Main definitions

* `respell`: tokens written again.
* `Piece.Steady`: what is known of a piece that was taken and makes tokens.
* `Piece.Steady.leads`: it leads again before a blank.
* `relex_respelled`: the text of the tokens has the same tokens.
-/

namespace Munch.Shell

/-- The text of a token, with a blank behind it unless it is a number before an operator. -/
def Kind.respelled : Kind → String
  | .ioNumber text => text
  | kind => kind.lexeme ++ " "

/-- Tokens written again. -/
def respell : List Kind → String
  | [] => ""
  | kind :: kinds => kind.respelled ++ respell kinds

variable {p : Piece} {rest text : List Char} {parts : List Part} {pieces : List Piece}

/-- The piece makes tokens. If it is a word, it is not reserved, and a number sign begins it only
if it reaches beyond the line. -/
def Piece.Steady : Piece → Prop
  | blanks .. | comment .. => False
  | word w _ => (∀ r : Reserved, w ≠ r.lexeme.toList) ∧ ∀ cs, w = '#' :: cs → '\n' ∈ cs
  | _ => True

/-- A piece that leads somewhere is steady if it makes tokens. -/
theorem Piece.Leads.steady (h : p.Leads text) (makes : p.kinds ≠ []) : p.Steady := by
  cases p with
  | blanks | comment => exact makes rfl
  | word w isWord =>
    constructor
    · rintro r rfl
      have := h.best (.reserved r) h.fits
      simp [Piece.text, Piece.rule] at this
    · rintro cs rfl
      by_contra inLine
      have := h.best (.comment cs inLine) h.fits
      simp [Piece.text, Piece.rule] at this
  | _ => trivial

theorem Operator.blank_not_mem (o : Operator) : ' ' ∉ o.lexeme.toList := by
  have without : ∀ o ∈ Operator.all, ' ' ∉ o.lexeme.toList := by decide
  exact without o o.mem_all

theorem IsNumber.blank_not_mem {ds : List Char} (h : IsNumber ds) : ' ' ∉ ds := by
  intro blank
  have digit := h.2 ' ' blank
  revert digit
  decide

theorem IsNumber.head {ds v : List Char} {c : Char} (h : IsNumber ds)
    (first : ds = c :: v) : c ∈ digits.toList := h.2 c (by simp [first])

/-! ## Each steady piece leads before a blank -/

theorem leads_newline (rest : List Char) : Piece.newline.Leads ('\n' :: ' ' :: rest) := by
  refine ⟨List.prefix_append ['\n'] _, fun q fits => ?_⟩
  have form := (q.opens fits).rule_of_newline
  cases q with
  | newline => exact .inr ⟨rfl, Nat.le_refl _⟩
  | _ => cases form

theorem leads_operator (o : Operator) (rest : List Char) :
    (Piece.operator o).Leads (o.lexeme.toList ++ ' ' :: rest) :=
  leads_operator_of_longest fun o' fits => length_le_of_not_mem fits o'.blank_not_mem

theorem leads_reserved (r : Reserved) (rest : List Char) :
    (Piece.reserved r).Leads (r.lexeme.toList ++ ' ' :: rest) := by
  refine ⟨List.prefix_append _ _, fun q fits => ?_⟩
  have blank : ' ' ∈ delimiters.toList := by decide
  obtain ⟨c, v, first⟩ := List.exists_cons_of_length_pos (Piece.reserved r).length_pos
  obtain ⟨plain, digit, sign⟩ := Piece.opens_of_eq first
  rw [Piece.text] at first
  have form := (q.opens (by rwa [first] at fits)).rule_of_plain plain
  cases q with
  | reserved r' =>
    have := r'.isWord.length_le fits r.isWord blank
    simp only [Piece.text, Piece.rule]
    omega
  | word w isWord =>
    have := isWord.length_le fits r.isWord blank
    simp only [Piece.text, Piece.rule]
    omega
  | _ => simp [Piece.rule, digit, sign] at form

theorem leads_redirection {ds : List Char} {o : Operator} (isNumber : IsNumber ds)
    (redirects : o.isRedirection = true) (rest : List Char) :
    (Piece.redirection ds o isNumber redirects).Leads
      (ds ++ o.lexeme.toList ++ ' ' :: rest) := by
  refine ⟨List.prefix_append _ _, fun q fits => ?_⟩
  obtain ⟨c, v, first⟩ := List.exists_cons_of_ne_nil isNumber.1
  have form := (q.opens (by rwa [first] at fits)).rule_of_digit (isNumber.head first)
  obtain ⟨d, u, lexeme, delimiter, -⟩ := SpellsRedirection.opens ⟨o, redirects, rfl⟩
  cases q with
  | redirection ds' o' isNumber' redirects' =>
    have without : ' ' ∉ ds' ++ o'.lexeme.toList := by
      simp [isNumber'.blank_not_mem, o'.blank_not_mem]
    have : (ds' ++ o'.lexeme.toList).length ≤ (ds ++ o.lexeme.toList).length :=
      length_le_of_not_mem fits without
    simp only [Piece.text, Piece.rule]
    omega
  | word w isWord =>
    rw [lexeme, List.append_assoc] at fits
    have := isWord.length_le fits isNumber.isWord delimiter
    simp only [Piece.text, Piece.rule, lexeme, List.length_append, List.length_cons]
    omega
  | _ => simp [Piece.rule] at form

theorem leads_word {w : List Char} (isWord : IsWord w)
    (free : ∀ r : Reserved, w ≠ r.lexeme.toList) (sign : ∀ cs, w = '#' :: cs → '\n' ∈ cs)
    (rest : List Char) : (Piece.word w isWord).Leads (w ++ ' ' :: rest) := by
  have blank : ' ' ∈ delimiters.toList := by decide
  have longest : LongestWord w (w ++ ' ' :: rest) :=
    ⟨isWord, List.prefix_append _ _, fun v word fits => word.length_le fits isWord blank⟩
  apply leads_word_of_longest longest free
  · intro cs inLine fits
    obtain ⟨c, v, rfl⟩ := List.exists_cons_of_ne_nil isWord.ne_nil
    -- The word goes on behind its newline, where the comment ends.
    obtain ⟨rfl, behind⟩ := List.cons_prefix_cons.1 fits
    obtain ⟨x, y, rfl⟩ := List.append_of_mem (sign v rfl)
    have cut : cs <+: x ++ '\n' :: (y ++ ' ' :: rest) := by simpa using behind
    have := length_le_of_not_mem cut inLine
    simp only [List.length_cons, List.length_append]
    omega
  · intro ds o isNumber redirects fits
    have without : ' ' ∉ ds ++ o.lexeme.toList := by
      simp [isNumber.blank_not_mem, o.blank_not_mem]
    have within := length_le_of_not_mem fits without
    exact isWord.not_redirection isNumber redirects
      (List.prefix_of_prefix_length_le fits (List.prefix_append _ _) within)

/-- A steady piece leads where a blank follows it. -/
theorem Piece.Steady.leads (h : p.Steady) (rest : List Char) : p.Leads (p.text ++ ' ' :: rest) := by
  cases p with
  | blanks | comment => exact h.elim
  | newline => exact leads_newline rest
  | operator o => exact leads_operator o rest
  | reserved r => exact leads_reserved r rest
  | redirection ds o isNumber redirects => exact leads_redirection isNumber redirects rest
  | word w isWord => exact leads_word isWord h.1 h.2 rest

/-! ## The text of the tokens -/

/-- A blank. -/
def blank : Piece := .blanks [' '] (by simp) (by simp)

theorem kinds_blank : blank.kinds = [] := rfl

/-- A blank leads where no blank follows. -/
theorem leads_blank (next : ∀ c ∈ rest.head?, c ≠ ' ' ∧ c ≠ '\t') : blank.Leads (' ' :: rest) := by
  refine ⟨List.prefix_append [' '] rest, fun q fits => ?_⟩
  have form := (q.opens fits).rule_of_blank (.inl rfl)
  cases q with
  | blanks text nonempty blanks =>
    obtain ⟨d, u, rfl⟩ := List.exists_cons_of_ne_nil nonempty
    obtain ⟨-, behind⟩ := List.cons_prefix_cons.1 fits
    cases u with
    | nil => exact .inr ⟨rfl, Nat.le_refl _⟩
    | cons e u =>
      obtain ⟨v, rfl⟩ := behind
      obtain ⟨space, tab⟩ := next e rfl
      exact absurd (blanks e (by simp)) (by simp [space, tab])
  | _ => cases form

/-- No blank begins what makes tokens. -/
theorem Piece.Steady.head (h : p.Steady) : ∀ c ∈ (p.text ++ rest).head?, c ≠ ' ' ∧ c ≠ '\t' := by
  obtain ⟨d, u, first⟩ := List.exists_cons_of_length_pos p.length_pos
  have opens := Piece.opens_of_eq first
  intro c hc
  obtain rfl : d = c := by simpa [first] using hc
  refine ⟨fun space => ?_, fun tab => ?_⟩
  all_goals
    have form := opens.rule_of_blank (by simp [*])
    cases p with
    | blanks => exact h
    | _ => cases form

/-- Steady pieces, a blank behind each. -/
def spaced (pieces : List Piece) : List Char := pieces.flatMap fun p => p.text ++ [' ']

/-- The parts of steady pieces with blanks between them. -/
theorem splits_spaced (steady : ∀ p ∈ pieces, p.Steady) :
    Splits (spaced pieces) (pieces.flatMap fun p => [.piece p, .piece blank]) := by
  induction pieces with
  | nil => exact .done
  | cons p pieces ih =>
    obtain ⟨first, others⟩ := List.forall_mem_cons.1 steady
    have next : ∀ c ∈ (spaced pieces).head?, c ≠ ' ' ∧ c ≠ '\t' := by
      cases pieces with
      | nil => nofun
      | cons q pieces =>
        rw [spaced, List.flatMap_cons, List.append_assoc]
        exact (others q List.mem_cons_self).head
    have behind := Splits.piece (leads_blank next) (ih others)
    rw [spaced, List.flatMap_cons, List.append_assoc]
    exact .piece (first.leads _) behind

/-- The tokens that parts make are those of steady pieces. -/
theorem Splits.exists_steady (h : Splits text parts) : ∃ pieces : List Piece,
    (∀ p ∈ pieces, p.Steady) ∧ parts.flatMap Part.kinds = pieces.flatMap Piece.kinds := by
  induction h with
  | done => exact ⟨[], nofun, rfl⟩
  | stray _ _ ih => exact ih
  | @piece p rest parts leads _ ih =>
    obtain ⟨pieces, steady, same⟩ := ih
    by_cases silent : p.kinds = []
    · exact ⟨pieces, steady, by rw [List.flatMap_cons, Part.kinds, silent, same]; rfl⟩
    · refine ⟨p :: pieces, List.forall_mem_cons.2 ⟨leads.steady silent, steady⟩, ?_⟩
      rw [List.flatMap_cons, List.flatMap_cons, same]
      rfl

theorem respell_append (ks ks' : List Kind) :
    respell (ks ++ ks') = respell ks ++ respell ks' := by
  induction ks with
  | nil => simp [respell]
  | cons k ks ih => rw [List.cons_append, respell, respell, ih, String.append_assoc]

/-- Tokens of steady pieces are written again with a blank behind each piece. -/
theorem respell_steady (steady : ∀ p ∈ pieces, p.Steady) :
    (respell (pieces.flatMap Piece.kinds)).toList = spaced pieces := by
  induction pieces with
  | nil => rfl
  | cons p pieces ih =>
    obtain ⟨first, others⟩ := List.forall_mem_cons.1 steady
    have own : (respell p.kinds).toList = p.text ++ [' '] := by
      cases p with
      | blanks | comment => exact first.elim
      | _ => simp [Piece.kinds, respell, Kind.respelled, Kind.lexeme, Piece.text]
    rw [List.flatMap_cons, respell_append, String.toList_append, own, ih others]
    rfl

/-- The tokens of a text, written again, are the tokens of what is written. -/
theorem relex_respelled (text : String) (capacity : Nat) (room : 1 ≤ capacity) :
    ∃ ts ts' : List (Token Kind), tokens (.ofString text) capacity = .ok (ts.map .ok) ∧
      tokens (.ofString (respell (ts.map (·.kind)))) capacity = .ok (ts'.map .ok) ∧
      ts'.map (·.kind) = ts.map (·.kind) := by
  obtain ⟨parts, splits⟩ := exists_splits text.toList
  obtain ⟨pieces, steady, same⟩ := splits.exists_steady
  have again := splits_spaced steady
  rw [← respell_steady steady, ← same, ← map_kind_tokensOf {} parts] at again
  refine ⟨_, _, tokens_of_splits room splits, tokens_of_splits room again, ?_⟩
  rw [map_kind_tokensOf, map_kind_tokensOf, same]
  simp [List.flatMap_assoc, Part.kinds, kinds_blank]

/-- A number before its operator, a word that takes a newline with it, and a reserved word behind a
quote that nothing closes. -/
theorem relex_respelled_of_open_quote : ∃ ts : List (Token Kind),
    tokens (.ofString "2>& 1 #\\\n if ") 16 = .ok (ts.map .ok) ∧ ts.map (·.kind) =
      [.ioNumber "2", .operator .greatAnd, .word "1", .word "#\\\n", .reserved .ifWord] := by
  obtain ⟨ts, ts', all, again, same⟩ := relex_respelled "2>&1 #\\\n'if" 16 (by decide)
  have first : tokens (.ofString "2>&1 #\\\n'if") 16 = .ok ([⟨.ioNumber "2", ⟨0, 0⟩⟩,
      ⟨.operator .greatAnd, ⟨0, 1⟩⟩, ⟨.word "1", ⟨0, 3⟩⟩, ⟨.word "#\\\n", ⟨0, 5⟩⟩,
      ⟨.reserved .ifWord, ⟨1, 1⟩⟩].map .ok) := by decide +kernel
  rw [first, Except.ok.injEq] at all
  obtain rfl := List.map_injective_iff.2 (fun _ _ => Except.ok.inj) all
  exact ⟨ts', again, same⟩

end Munch.Shell
