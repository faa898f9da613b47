import Munch.Proofs.Splitting

/-!
# When a comment hides its line

A number sign begins a comment, and it may begin a word as well. The comment ends with its line,
but a word goes on behind the newline if a quoted part or an escape takes the newline with it, and
then the longer match is the word. So a comment at the beginning of a text hides its line and
nothing else just if no word beginning there reaches beyond the line.

## Main definitions

* `leads_comment`: the comment is taken if no word is longer.
* `comment_hides_line_iff`: the kinds of the tokens are those of the text behind the line just then.
-/

namespace Munch.Shell

variable {c r : List Char} {capacity : Nat}

/-- A line that begins with a number sign: what is behind the line is empty or begins with a
newline. -/
structure IsLine (c r : List Char) : Prop where
  inLine : '\n' ∉ c
  ends : r = [] ∨ ∃ v, r = '\n' :: v

/-- No word that begins with the number sign reaches beyond the line. -/
def Hides (c r : List Char) : Prop :=
  ∀ w, IsWord w → w <+: '#' :: c ++ r → w.length ≤ c.length + 1

/-- Without a newline no more than the line is taken. -/
theorem IsLine.length_le (h : IsLine c r) {cs : List Char} (inLine : '\n' ∉ cs)
    (fits : cs <+: c ++ r) : cs.length ≤ c.length := by
  rcases h.ends with rfl | ⟨v, rfl⟩
  · simpa using fits.length_le
  · exact length_le_of_not_mem fits inLine

/-- The comment is taken if no word is longer. -/
theorem leads_comment (h : IsLine c r) (hides : Hides c r) :
    (Piece.comment c h.inLine).Leads ('#' :: c ++ r) := by
  constructor
  · exact List.prefix_append _ _
  · intro q fits
    have form := (q.opens fits).rule_of_sign
    cases q with
    | comment cs inLine =>
      have := h.length_le inLine (List.cons_prefix_cons.1 fits).2
      simp only [Piece.text, Piece.rule, List.length_cons]
      omega
    | word w isWord =>
      have := hides w isWord fits
      simp only [Piece.text, Piece.rule, List.length_cons]
      omega
    | _ => simp [Piece.rule] at form

/-- A longer word is taken instead of the comment. -/
theorem leads_word_of_longer (h : IsLine c r) {w : List Char} (isWord : IsWord w)
    (fits : w <+: '#' :: c ++ r) (longer : c.length + 1 < w.length) {p : Piece}
    (leads : p.Leads ('#' :: c ++ r)) : ∃ v isWord, p = .word v isWord := by
  have form := (p.opens leads.fits).rule_of_sign
  cases p with
  | comment cs inLine =>
    have := h.length_le inLine (List.cons_prefix_cons.1 leads.fits).2
    have := leads.best (.word w isWord) fits
    simp only [Piece.text, Piece.rule, List.length_cons] at this
    omega
  | word v isWord => exact ⟨v, isWord, rfl⟩
  | _ => simp [Piece.rule] at form

/-- Where a newline is next, it is taken. -/
theorem kinds_of_newline {v : List Char} {parts : List Part} (splits : Splits ('\n' :: v) parts) :
    ∃ more, parts.flatMap Part.kinds = .newline :: more := by
  obtain ⟨p, rest, more, -, leads, -, rfl⟩ :=
    splits.exists_leads (q := .newline) (List.prefix_append ['\n'] v)
  have form := (p.opens leads.fits).rule_of_newline
  cases p with
  | newline => exact ⟨_, rfl⟩
  | _ => cases form

/-- A comment at the beginning of a text hides its line and nothing else just if no word that
begins with the number sign reaches beyond the line: then the kinds of the tokens are those of the
text behind the line. -/
theorem comment_hides_line_iff (capacity : Nat) (room : 1 ≤ capacity) (c r : String)
    (inLine : '\n' ∉ c.toList) (ends : r = "" ∨ ∃ v, r = "\n" ++ v) :
    ∃ ts ts' : List (Token Kind),
      tokens (.ofString ("#" ++ c ++ r)) capacity = .ok (ts.map .ok) ∧
      tokens (.ofString r) capacity = .ok (ts'.map .ok) ∧
      (ts.map (·.kind) = ts'.map (·.kind) ↔ Hides c.toList r.toList) := by
  have line : IsLine c.toList r.toList := by
    refine ⟨inLine, ?_⟩
    rcases ends with rfl | ⟨v, rfl⟩
    · exact .inl rfl
    · exact .inr ⟨v.toList, by simp⟩
  have whole : ("#" ++ c ++ r).toList = '#' :: c.toList ++ r.toList := by simp
  obtain ⟨behind, splits'⟩ := exists_splits r.toList
  by_cases hides : Hides c.toList r.toList
  · have splits := Splits.piece (leads_comment line hides) splits'
    refine ⟨_, _, tokens_of_splits room (whole ▸ splits), tokens_of_splits room splits', ?_⟩
    rw [map_kind_tokensOf, map_kind_tokensOf]
    exact iff_of_true rfl hides
  · obtain ⟨parts, splits⟩ := exists_splits ("#" ++ c ++ r).toList
    refine ⟨_, _, tokens_of_splits room splits, tokens_of_splits room splits', ?_⟩
    rw [map_kind_tokensOf, map_kind_tokensOf]
    refine iff_of_false ?_ hides
    rw [whole] at splits
    simp only [Hides, not_forall, Nat.not_le] at hides
    obtain ⟨w, isWord, fits, longer⟩ := hides
    obtain ⟨p, rest, more, -, leads, -, rfl⟩ := splits.exists_leads (q := .word w isWord) fits
    obtain ⟨v, isWord', rfl⟩ := leads_word_of_longer line isWord fits longer leads
    -- A word beyond the line needs a newline there, which makes a token when it is alone.
    rcases line.ends with none | ⟨u, next⟩
    · have := fits.length_le
      simp only [none, List.append_nil, List.length_cons] at this
      omega
    · rw [next] at splits'
      obtain ⟨others, first⟩ := kinds_of_newline splits'
      rw [first, List.flatMap_cons]
      nofun

/-- An apostrophe in a comment does no harm behind a blank. -/
theorem comment_hides_line_of_blank : ∃ ts ts' : List (Token Kind),
    tokens (.ofString ("#" ++ " it's" ++ "\nfi")) 16 = .ok (ts.map .ok) ∧
      tokens (.ofString "\nfi") 16 = .ok (ts'.map .ok) ∧ ts.map (·.kind) = ts'.map (·.kind) := by
  obtain ⟨ts, ts', all, behind, same⟩ := comment_hides_line_iff 16 (by decide) " it's" "\nfi"
    (by decide) (.inr ⟨"fi", by decide⟩)
  refine ⟨ts, ts', all, behind, same.2 fun w isWord fits => ?_⟩
  have sign : IsWord ['#'] := .segment (.unquoted (by decide))
  have := isWord.length_le (x := "it's\nfi".toList) (by simpa using fits) sign (by decide)
  exact Nat.le_trans this (by decide)

/-- A backslash at the end of the line takes the newline into a word: the comment is not hidden, and
the newline is not seen. -/
theorem comment_not_hidden : '\n' ∉ "\\".toList ∧
    tokens (.ofString ("#" ++ "\\" ++ "\n")) 16 = .ok [.ok ⟨.word "#\\\n", ⟨0, 0⟩⟩] ∧
    tokens (.ofString "\n") 16 = .ok [.ok ⟨.newline, ⟨0, 0⟩⟩] := by
  refine ⟨by decide, ?_, ?_⟩ <;> decide +kernel

end Munch.Shell
