import Munch.Proofs.Listing
import Munch.Proofs.MaximalMunch
import Munch.Proofs.Recognizing

/-!
# Families whose languages are known

Where the language of every member is known, a family offers the beginnings of a text that are in
the language of some member, whether or not the attempt is the first. What a pass over a text gives
is then told by the languages alone: the frame of the preferred beginning and the frames behind it,
or the frames behind one character if the text begins with no word of any language.

## Main definitions

* `Family.Speaks`: each member recognizes the language with its index.
* `Family.Speaks.offers_iff`: what such a family offers.
* `Pass.frames_of_prefers`, `Pass.frames_of_silence`, `Pass.frames_of_end`: what a pass gives.
-/

namespace Munch

/-- The best of candidates is longer than any other, or as long and not of a later member. -/
theorem Candidate.eq_or_beats_iff {c d : Candidate} : d = c ∨ c.Beats d ↔
    d.length < c.length ∨ d.length = c.length ∧ c.index ≤ d.index := by
  obtain ⟨i, m⟩ := c
  obtain ⟨j, n⟩ := d
  simp only [Candidate.Beats, Candidate.mk.injEq]
  omega

namespace Family

variable {f : Family Automaton} {L : Nat → List Char → Prop} {fresh final : Bool}
  {rest : List Char} {c : Candidate}

/-- Each member recognizes the language with its index, and there are no other languages. -/
structure Speaks (f : Family Automaton) (L : Nat → List Char → Prop) : Prop where
  recognizes : ∀ (i : Nat) (a : Automaton), f.members[i]? = some a → a.Recognizes (L i)
  inside : ∀ i w, L i w → i < f.members.length

/-- The nonempty beginnings are offered that are in the language of some member. -/
theorem Speaks.offers_iff (h : f.Speaks L) : f.Offers fresh final rest c ↔
    ∃ w, w ≠ [] ∧ w <+: rest ∧ L c.index w ∧ c.length = w.length := by
  constructor
  · rintro ⟨pos, le, a, member, accepts | ⟨-, -, accepts⟩⟩
    · have length := List.length_take_of_le le
      refine ⟨rest.take c.length, List.ne_nil_of_length_pos (by omega), List.take_prefix _ _,
        ((h.recognizes _ a member).accepts fresh _).1 accepts, length.symm⟩
    · exact absurd accepts ((h.recognizes _ a member).atEnd fresh rest)
  · rintro ⟨w, nonempty, starts, spoken, length⟩
    have member := List.getElem?_eq_getElem (h.inside _ _ spoken)
    refine ⟨length ▸ List.length_pos_iff.2 nonempty, length ▸ starts.length_le, _, member, .inl ?_⟩
    rw [length, ← List.prefix_iff_eq_take.1 starts]
    exact ((h.recognizes _ _ member).accepts fresh w).2 spoken

/-- Of what is offered something is preferred. -/
theorem Offers.exists_prefers (h : f.Offers fresh true rest c) :
    ∃ d, f.Prefers fresh true rest d := by
  have best := Attempt.isBest_close_feed f fresh rest
  generalize ((Attempt.start f fresh).feed rest).close.best = chosen at best
  cases chosen with
  | none => exact absurd h (best c)
  | some d => exact ⟨d, prefers_iff.2 best⟩

end Family

namespace Pass

variable {f : Family Automaton} {fresh : Bool} {w rest : List Char} {pos : Position} {i : Nat}
  {c : Char}

/-- A pass that owns its text. -/
def ofText (f : Family Automaton) (fresh : Bool) (text : List Char) (pos : Position) : Pass :=
  { family := f, buffer := text, pos, ended := true, fresh }

/-- What a pass gives is told by its next scan. -/
theorem frames_congr {p q : Pass} (family : p.family = q.family)
    (same : p.scan .empty = q.scan .empty) (depth : Nat) : p.frames depth = q.frames depth := by
  rcases scanned : q.scan .empty with ⟨⟨m, r⟩ | pos | ⟨e, pos⟩, left⟩
  · rw [frames_of_found scanned, frames_of_found (same.trans scanned), family]
  · rw [frames_of_exhausted scanned, frames_of_exhausted (same.trans scanned)]
  · have failing := failure_of_scan_failed q.agrees_empty scanned
    cases failing

theorem best_of_prefers {text : List Char} {d : Candidate} (h : f.Prefers fresh true text d)
    (pos : Position) : (ofText f fresh text pos).atHand.close.best = some d := by
  have best : Candidate.IsBest (f.Offers fresh true text)
      (ofText f fresh text pos).atHand.close.best := Attempt.isBest_close_feed f fresh text
  generalize (ofText f fresh text pos).atHand.close.best = chosen at best
  cases chosen with
  | none => exact absurd h.offers (best d)
  | some e => rw [(Family.prefers_iff.2 best).unique h]

theorem best_of_silence {text : List Char} (h : ∀ d, ¬f.Offers fresh true text d)
    (pos : Position) : (ofText f fresh text pos).atHand.close.best = none := by
  have best : Candidate.IsBest (f.Offers fresh true text)
      (ofText f fresh text pos).atHand.close.best := Attempt.isBest_close_feed f fresh text
  generalize (ofText f fresh text pos).atHand.close.best = chosen at best
  cases chosen with
  | none => rfl
  | some e => exact absurd best.1 (h e)

theorem attempt_ofText (f : Family Automaton) (fresh : Bool) (text : List Char) (pos : Position) :
    (ofText f fresh text pos).attempt .empty = ((ofText f fresh text pos).verdict, .empty) :=
  attempt_of_ended rfl .empty

/-- The preferred beginning is matched. -/
theorem frames_of_prefers (h : f.Prefers fresh true (w ++ rest) ⟨i, w.length⟩) (pos : Position)
    (depth : Nat) : (ofText f fresh (w ++ rest) pos).frames depth =
      ⟨some i, String.ofList w, pos, depth⟩ :: (f.inside ⟨i, w, pos⟩ (depth + 1) ++
        (ofText f false rest (pos.visitAll w)).frames depth) := by
  have verdict : (ofText f fresh (w ++ rest) pos).verdict =
      .inl (.found ⟨i, w, pos⟩ (ofText f false rest (pos.visitAll w))) := by
    rw [Pass.verdict, best_of_prefers h]
    simp [consume, ofText]
  have attempted := attempt_ofText f fresh (w ++ rest) pos
  rw [verdict] at attempted
  exact frames_of_found (scan_of_ending attempted) depth

/-- Where nothing is offered a character is passed over. -/
theorem frames_of_silence (h : ∀ d, ¬f.Offers fresh true (c :: rest) d) (pos : Position)
    (depth : Nat) : (ofText f fresh (c :: rest) pos).frames depth =
      (ofText f false rest (pos.visit c)).frames depth := by
  have verdict : (ofText f fresh (c :: rest) pos).verdict =
      .inr (ofText f false rest (pos.visit c)) := by
    rw [Pass.verdict, best_of_silence h]
    rfl
  have attempted := attempt_ofText f fresh (c :: rest) pos
  rw [verdict] at attempted
  have same := scan_of_skipping attempted
  exact frames_congr (by rfl) same depth

/-- At the end of its text a pass ends. -/
theorem frames_of_end (f : Family Automaton) (fresh : Bool) (pos : Position) (depth : Nat) :
    (ofText f fresh [] pos).frames depth = [.ending pos depth] := by
  have silence : ∀ d, ¬f.Offers fresh true [] d := fun d offered =>
    absurd List.take_nil offered.take_ne_nil
  have verdict : (ofText f fresh [] pos).verdict = .inl (.exhausted pos) := by
    rw [Pass.verdict, best_of_silence silence]
    rfl
  have attempted := attempt_ofText f fresh [] pos
  rw [verdict] at attempted
  exact frames_of_exhausted (scan_of_ending attempted) depth

end Pass

end Munch
