import Mathlib.Tactic.IntervalCases
import Munch.Proofs.Sites

/-!
# Numbers before redirections

A token of digits is either a word or the number of a file descriptor. It is the latter just if the
next token is a redirection operator that begins where the digits end. For one half, such a number
comes from a piece that is taken apart into the number and its operator. For the other, an operator
directly behind a word of digits would make a longer piece with it, so the word would not have been
taken.

## Main definitions

* `BeforeRedirection`: a token that the next one touches, which is a redirection operator.
* `next_of_ioNumber`, `ioNumber_of_next`: both halves.
* `digits_are_numbers_iff`: tokens of digits in every text.
-/

namespace Munch.Shell

variable {before text : List Char} {parts : List Part} {s : Site} {later : List Site}

/-- The first of the later tokens is a redirection operator that begins where the token ends. -/
def BeforeRedirection (s : Site) (later : List Site) : Prop :=
  ∃ t ∈ later.head?, (∃ o, t.kind = .operator o ∧ o.isRedirection = true) ∧ t.before = s.through

/-! ## Digits -/

theorem isDigit_iff {c : Char} : c.isDigit = true ↔ c ∈ digits.toList := by
  constructor
  · intro digit
    have bounds : 48 ≤ c.toNat ∧ c.toNat ≤ 57 := by
      simpa [Char.isDigit, UInt32.le_iff_toNat_le] using digit
    rw [← Char.ofNat_toNat c]
    generalize c.toNat = n at bounds
    obtain ⟨low, high⟩ := bounds
    interval_cases n <;> decide
  · have all : ∀ d ∈ digits.toList, d.isDigit = true := List.all_iff_forall_prop.1 (by decide)
    intro digit
    exact all c digit

/-- Only words and numbers are made of digits. -/
theorem Kind.of_digits {kind : Kind} (digits : ∀ c ∈ kind.lexeme.toList, c.isDigit = true) :
    (∃ n, kind = .ioNumber n) ∨ kind = .word kind.lexeme := by
  have all := List.all_eq_true.2 digits
  cases kind with
  | operator o =>
    have none : ∀ o ∈ Operator.all, o.lexeme.toList.all Char.isDigit = false := by decide
    cases (none o o.mem_all).symm.trans all
  | reserved r =>
    have none : ∀ r ∈ Reserved.all, r.lexeme.toList.all Char.isDigit = false := by decide
    cases (none r r.mem_all).symm.trans all
  | word text => exact .inr rfl
  | ioNumber n => exact .inl ⟨n, rfl⟩
  | newline => exact absurd (digits '\n' (by decide)) (by decide)

/-- The number of a file descriptor is made of digits. -/
theorem digits_of_ioNumber {n : String} (splits : Splits text parts)
    (among : s ∈ sitesOf before parts) (number : s.kind = .ioNumber n) :
    ∀ c ∈ n.toList, c.isDigit = true := by
  obtain ⟨u, p, rest, -, -, made⟩ := splits.exists_leads_of_mem among
  cases made with
  | number ds o isNumber =>
    cases number
    intro c hc
    rw [String.toList_ofList] at hc
    exact isDigit_iff.2 (isNumber.2 c hc)
  | _ => cases number

/-! ## What follows a token of digits -/

/-- The number of a file descriptor is followed by its operator. -/
theorem next_of_ioNumber {n : String} (h : s :: later <:+ sitesOf before parts)
    (number : s.kind = .ioNumber n) : BeforeRedirection s later := by
  induction parts generalizing before with
  | nil => simp [sitesOf] at h
  | cons part parts ih =>
    cases part with
    | stray c => exact ih h
    | piece p =>
      cases p with
      | redirection ds o isNumber redirects =>
        simp only [sitesOf, Part.kinds, Piece.kinds, sitesFrom, List.cons_append, List.nil_append,
          List.suffix_cons_iff] at h
        rcases h with here | here | behind
        · cases here
          exact ⟨_, rfl, ⟨o, rfl, redirects⟩, rfl⟩
        · cases here
          cases number
        · exact ih behind
      | blanks | comment => exact ih h
      | _ =>
        simp only [sitesOf, Part.kinds, Piece.kinds, sitesFrom, List.cons_append, List.nil_append,
          List.suffix_cons_iff] at h
        rcases h with here | behind
        · cases here
          cases number
        · exact ih behind

/-- A word of digits is not followed by a redirection operator that touches it. -/
theorem not_leads_word_of_digits {w rest : List Char} {isWord : IsWord w} {o : Operator}
    (leads : (Piece.word w isWord).Leads (w ++ rest)) (digits : ∀ c ∈ w, c.isDigit = true)
    (redirects : o.isRedirection = true) : ¬o.lexeme.toList <+: rest := by
  intro fits
  have isNumber : IsNumber w := ⟨isWord.ne_nil, fun c hc => isDigit_iff.1 (digits c hc)⟩
  have whole : w ++ o.lexeme.toList <+: w ++ rest := (List.prefix_append_right_inj w).2 fits
  have := leads.best (.redirection w o isNumber redirects) whole
  have := (Piece.operator o).length_pos
  simp only [Piece.text, Piece.rule, List.length_append] at *
  omega

/-- A token of digits that a redirection operator touches is the number of a file descriptor. -/
theorem ioNumber_of_next (splits : Splits text parts) (h : s :: later <:+ sitesOf before parts)
    (digits : ∀ c ∈ s.kind.lexeme.toList, c.isDigit = true) (next : BeforeRedirection s later) :
    ∃ n, s.kind = .ioNumber n := by
  rcases Kind.of_digits digits with number | word
  · exact number
  have among : s ∈ sitesOf before parts := h.subset List.mem_cons_self
  obtain ⟨t, first, ⟨o, kind, redirects⟩, touches⟩ := next
  have stands : t.through <+: before ++ text :=
    (inOrder_sitesOf splits before).stands t
      (h.subset (List.mem_cons_of_mem s (List.mem_of_mem_head? first)))
  rw [Site.through, touches, kind] at stands
  obtain ⟨u, p, rest, same, leads, made⟩ := splits.exists_leads_of_mem among
  cases made with
  | word w isWord =>
    simp only [Kind.lexeme, String.toList_ofList] at digits
    simp only [Site.through, Kind.lexeme, String.toList_ofList, same, Piece.text,
      List.append_assoc, List.prefix_append_right_inj] at stands
    exact absurd stands (not_leads_word_of_digits leads digits redirects)
  | _ => cases word

/-- In every text, a token of digits is the number of a file descriptor just if the next token is a
redirection operator that begins where it ends, and else it is a word; and these numbers are made of
digits. -/
theorem digits_are_numbers_iff (text : String) (capacity : Nat) (room : 1 ≤ capacity) :
    ∃ sites : List Site,
      tokens (.ofString text) capacity = .ok (sites.map fun s => .ok s.token) ∧
      InOrder text.toList sites ∧
      ∀ s later, s :: later <:+ sites →
        ((∀ c ∈ s.kind.lexeme.toList, c.isDigit = true) →
          ((∃ n, s.kind = .ioNumber n) ↔ BeforeRedirection s later) ∧
          ((∃ n, s.kind = .ioNumber n) ∨ s.kind = .word s.kind.lexeme)) ∧
        ∀ n, s.kind = .ioNumber n → ∀ c ∈ n.toList, c.isDigit = true := by
  obtain ⟨parts, splits, all⟩ := exists_sites text room
  refine ⟨_, all, inOrder_sitesOf splits [], ?_⟩
  intro s later h
  have among : s ∈ sitesOf [] parts := h.subset List.mem_cons_self
  refine ⟨fun digits => ⟨⟨?_, ?_⟩, Kind.of_digits digits⟩, ?_⟩
  · rintro ⟨n, number⟩
    exact next_of_ioNumber h number
  · exact ioNumber_of_next splits h digits
  · intro n number
    exact digits_of_ioNumber splits among number

/-- Behind a quote that nothing closes, a number before its operator, and digits at the end. -/
theorem digits_are_numbers_iff_past_quote :
    1 ≤ 16 ∧ ∃ s later, InOrder "'2>&1".toList (s :: later) ∧ s.kind = .ioNumber "2" ∧
      BeforeRedirection s later ∧ ∃ t, [t] <:+ later ∧ t.kind = .word "1" := by
  have room : 1 ≤ 16 := by decide
  obtain ⟨sites, all, order, form⟩ := digits_are_numbers_iff "'2>&1" 16 room
  have same : tokens (.ofString "'2>&1") 16 = .ok [.ok ⟨.ioNumber "2", ⟨0, 1⟩⟩,
      .ok ⟨.operator .greatAnd, ⟨0, 2⟩⟩, .ok ⟨.word "1", ⟨0, 4⟩⟩] := by decide +kernel
  rw [same, Except.ok.injEq] at all
  obtain ⟨s, later, rfl, first, rest⟩ := List.map_eq_cons_iff.1 all.symm
  obtain ⟨o, last, rfl, -, rest⟩ := List.map_eq_cons_iff.1 rest
  obtain ⟨t, none, rfl, final, rest⟩ := List.map_eq_cons_iff.1 rest
  obtain rfl := List.map_eq_nil_iff.1 rest
  have number : s.kind = .ioNumber "2" := congrArg Token.kind (Except.ok.inj first)
  have word : t.kind = .word "1" := congrArg Token.kind (Except.ok.inj final)
  have digits : ∀ c ∈ s.kind.lexeme.toList, c.isDigit = true := by
    rw [number]
    exact List.all_eq_true.1 (by decide)
  have next := ((form s [o, t] List.suffix_rfl).1 digits).1.1 ⟨"2", number⟩
  exact ⟨room, s, [o, t], order, number, next, t, List.suffix_cons o [t], word⟩

end Munch.Shell
