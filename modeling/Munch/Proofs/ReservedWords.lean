import Munch.Proofs.Respelling
import Munch.Proofs.Sites

/-!
# Words and reserved words

Words and reserved words are made from the longest word at their place. It is a reserved word if it
is in the table, since that rule comes first, and else a word. A text that does not begin with a
number sign is a single word just if it is made of segments and not in the table: whatever else
begins at its front is shorter, or would end the word.

## Main definitions

* `Piece.Leads.longestWord`: what leads in the form of a word is the longest one.
* `longestWord_of_mem`: both forms of a word, at their place in a text.
* `tokens_eq_word_iff`: which texts are a single word.
* `words_are_longest`: words and reserved words in every text.
-/

namespace Munch.Shell

variable {p : Piece} {text w : List Char} {s : Site}

/-- A piece that leads and is a word is the longest word there. -/
theorem Piece.Leads.longestWord (h : p.Leads text) (isWord : IsWord p.text) :
    LongestWord p.text text := by
  refine ⟨isWord, h.fits, ?_⟩
  intro v isWord' fits
  have := h.best (.word v isWord') fits
  simp only [Piece.text] at this ⊢
  omega

/-- A piece that leads at its own text is the only part of it. -/
theorem Piece.Leads.splits (h : p.Leads p.text) : Splits p.text [.piece p] := by
  have leads : p.Leads (p.text ++ []) := by rwa [List.append_nil]
  have splits := Splits.piece leads .done
  rwa [List.append_nil] at splits

theorem ofList_not_mem_reserved :
    String.ofList w ∉ reservedTable.lexemes ↔ ∀ r : Reserved, w ≠ r.lexeme.toList := by
  rw [ofList_mem_reserved, not_exists]

/-- Without a number sign in front, a text is taken as one word if it is one and not reserved. -/
theorem leads_word_alone (isWord : IsWord w) (sign : w.head? ≠ some '#')
    (free : ∀ r : Reserved, w ≠ r.lexeme.toList) : (Piece.word w isWord).Leads w := by
  have longest : LongestWord w w :=
    ⟨isWord, List.prefix_rfl, fun v _ fits => fits.length_le⟩
  apply leads_word_of_longest longest free
  · rintro cs - ⟨x, rfl⟩
    simp at sign
  · intro ds o isNumber redirects
    exact isWord.not_redirection isNumber redirects

/-- A word or a reserved word is made from the longest word at its place, and which of the two it is
is told by the table. -/
theorem longestWord_of_mem {parts : List Part} (splits : Splits text parts)
    (among : s ∈ sitesOf [] parts)
    (form : (∃ w, s.kind = .word w) ∨ ∃ r, s.kind = .reserved r) :
    ∃ rest, text = s.before ++ rest ∧ LongestWord s.kind.lexeme.toList rest ∧
      ((∃ r, s.kind = .reserved r) ↔ s.kind.lexeme ∈ reservedTable.lexemes) := by
  obtain ⟨u, p, rest, same, leads, made⟩ := splits.exists_leads_of_mem among
  rw [List.nil_append] at same
  cases made with
  | word w isWord =>
    obtain ⟨free, -⟩ := leads.steady (by simp [Piece.kinds])
    refine ⟨_, same, ?_, ?_⟩
    · simp only [Kind.lexeme, String.toList_ofList]
      exact leads.longestWord isWord
    · simpa [Kind.lexeme] using ofList_not_mem_reserved.2 free
  | reserved r =>
    refine ⟨_, same, leads.longestWord r.isWord, ?_⟩
    simp [Kind.lexeme, Table.lexemes, reservedTable, Reserved.mem_all]
  | _ => simp at form

/-- Without a number sign in front, a text is a single word just if it is made of segments and not
in the table of reserved words. -/
theorem tokens_eq_word_iff {w : String} {capacity : Nat} (room : 1 ≤ capacity)
    (sign : w.toList.head? ≠ some '#') (pos : Position) :
    tokens (.ofString w) capacity = .ok [.ok ⟨.word w, pos⟩] ↔
      pos = {} ∧ IsWord w.toList ∧ w ∉ reservedTable.lexemes := by
  constructor
  · intro single
    obtain ⟨parts, splits, all⟩ := exists_sites w room
    rw [single, Except.ok.injEq] at all
    obtain ⟨s, one, token⟩ := List.map_eq_singleton_iff.1 all.symm
    have among : s ∈ sitesOf [] parts := by simp [one]
    obtain ⟨before, kind⟩ := s
    simp only [Site.token, Except.ok.injEq, Token.mk.injEq] at token
    obtain ⟨rfl, rfl⟩ := token
    obtain ⟨rest, same, longest, reserved⟩ := longestWord_of_mem splits among (.inl ⟨w, rfl⟩)
    -- The word is as long as the text, so nothing is in front of it.
    have length := congrArg List.length same
    have le := longest.fits.length_le
    simp only [Kind.lexeme, List.length_append] at length le
    obtain rfl : before = [] := List.length_eq_zero_iff.1 (by omega)
    refine ⟨rfl, longest.isWord, fun known => ?_⟩
    simpa using reserved.2 known
  · rintro ⟨rfl, isWord, unreserved⟩
    rw [← String.ofList_toList (s := w), ofList_not_mem_reserved] at unreserved
    have splits := (leads_word_alone isWord sign unreserved).splits
    rw [tokens_of_splits room splits]
    simp [tokensOf, Part.kinds, Piece.kinds, placed]

/-- Every word and every reserved word of a text is made from the longest word at its place, and it
is reserved just if that one is in the table; and a text without a number sign in front is a single
word just if it is made of segments and not in the table. -/
theorem words_are_longest (capacity : Nat) (room : 1 ≤ capacity) :
    (∀ text : String, ∃ sites : List Site,
      tokens (.ofString text) capacity = .ok (sites.map fun s => .ok s.token) ∧
      InOrder text.toList sites ∧
      ∀ s ∈ sites, (∃ w, s.kind = .word w) ∨ (∃ r, s.kind = .reserved r) →
        ∃ rest, text.toList = s.before ++ rest ∧ LongestWord s.kind.lexeme.toList rest ∧
          ((∃ r, s.kind = .reserved r) ↔ s.kind.lexeme ∈ reservedTable.lexemes)) ∧
    ∀ w : String, w.toList.head? ≠ some '#' → ∀ pos,
      tokens (.ofString w) capacity = .ok [.ok ⟨.word w, pos⟩] ↔
        pos = {} ∧ IsWord w.toList ∧ w ∉ reservedTable.lexemes := by
  constructor
  · intro text
    obtain ⟨parts, splits, all⟩ := exists_sites text room
    exact ⟨_, all, inOrder_sitesOf splits [], fun s => longestWord_of_mem splits⟩
  · intro w sign pos
    exact tokens_eq_word_iff room sign pos

/-- A reserved word behind a quote that nothing closes, and one whose letters go on with an escaped
newline and a quoted number sign. -/
theorem words_are_longest_past_quote :
    (∃ before rest, "a'fi".toList = before ++ rest ∧ LongestWord "fi".toList rest) ∧
      "if\\\n'#'".toList.head? ≠ some '#' ∧
      tokens (.ofString "if\\\n'#'") 16 = .ok [.ok ⟨.word "if\\\n'#'", ⟨0, 0⟩⟩] ∧
      IsWord "if\\\n'#'".toList := by
  obtain ⟨every, alone⟩ := words_are_longest 16 (by decide)
  constructor
  · obtain ⟨sites, all, -, form⟩ := every "a'fi"
    have same : tokens (.ofString "a'fi") 16 =
        .ok [.ok ⟨.word "a", ⟨0, 0⟩⟩, .ok ⟨.reserved .fiWord, ⟨0, 2⟩⟩] := by decide +kernel
    rw [same, Except.ok.injEq] at all
    have last : .ok ⟨.reserved .fiWord, ⟨0, 2⟩⟩ ∈
        sites.map fun s => (.ok s.token : Except LexError (Token Kind)) := by
      simp [← all]
    obtain ⟨s, among, token⟩ := List.mem_map.1 last
    have kind : s.kind = .reserved .fiWord := congrArg Token.kind (Except.ok.inj token)
    obtain ⟨rest, whole, longest, -⟩ := form s among (.inr ⟨.fiWord, kind⟩)
    rw [kind] at longest
    exact ⟨s.before, rest, whole, longest⟩
  · have sign : "if\\\n'#'".toList.head? ≠ some '#' := by decide
    have single : tokens (.ofString "if\\\n'#'") 16 = .ok [.ok ⟨.word "if\\\n'#'", ⟨0, 0⟩⟩] := by
      decide +kernel
    exact ⟨sign, single, ((alone _ sign _).1 single).2.1⟩

end Munch.Shell
