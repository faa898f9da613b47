import Munch.Proofs.Stream

/-!
# A request to stop truncates the stream

A scanner looks at the request to stop when it has something to hand out. What it then withholds
is every match and every end of an inner pass; the sentinel and a read failure come through, and
each of them is the last item anyway. So a run that is stopped agrees with the run that goes on:
up to the request item by item, then in at most one item, and from there it is silent, whatever
passes were open.

## Main definitions

* `Scanner.Closes`: an item behind which nothing follows.
* `Scanner.stop_truncates`: a run that is stopped after some calls beside the run that is not.
-/

namespace Munch.Scanner

variable {s : Scanner}

/-- The item is the sentinel or a read failure. -/
inductive Closes : Except ScanError Frame → Prop where
  | sentinel (pos : Position) : Closes (.ok (.ending pos 0))
  | failure (e : ScanError) : Closes (.error e)

theorem not_closes_match (i : Nat) (text : String) (pos : Position) (depth : Nat) :
    ¬Closes (.ok ⟨some i, text, pos, depth⟩) := nofun

theorem closes_ending_iff {pos : Position} {depth : Nat} :
    Closes (.ok (.ending pos depth)) ↔ depth = 0 := by
  constructor
  · intro h
    cases h
    rfl
  · rintro rfl
    exact .sentinel pos

/-- Once a stop is requested, a call closes every pass. -/
theorem passes_next_true (s : Scanner) : (s.next true).2.passes = [] := by
  obtain ⟨input, passes⟩ := s
  cases passes with
  | nil => rfl
  | cons p around =>
    rcases scanned : scanInnermost p around input with ⟨⟨m, q⟩ | pos | ⟨e, pos⟩, left⟩ <;>
      simp only [next, scanned]
    · rfl
    · cases around <;> rfl
    · rfl

/-- Of what a call would hand out, only what closes the stream comes through a request to stop. -/
theorem next_true_eq_some_iff {item : Except ScanError Frame} :
    (s.next true).1 = some item ↔ (s.next false).1 = some item ∧ Closes item := by
  obtain ⟨input, passes⟩ := s
  cases passes with
  | nil => simp [next]
  | cons p around =>
    rcases scanned : scanInnermost p around input with ⟨⟨m, q⟩ | pos | ⟨e, pos⟩, left⟩
    · have free := congrArg Prod.fst (next_of_found scanned)
      have stopped : (next ⟨input, p :: around⟩ true).1 = none := by simp [next, scanned]
      rw [free, stopped]
      constructor
      · intro h
        cases h
      · rintro ⟨same, closes⟩
        cases same
        exact absurd closes (not_closes_match _ _ _ _)
    · have free := congrArg Prod.fst (next_of_exhausted scanned)
      rw [free]
      cases around with
      | nil =>
        have through : (next ⟨input, [p]⟩ true).1 = some (.ok (.ending pos 0)) := by
          simp [next, scanned]
        rw [through]
        refine ⟨fun h => ⟨h, ?_⟩, fun h => h.1⟩
        cases h
        exact .sentinel pos
      | cons q around =>
        have stopped : (next ⟨input, p :: q :: around⟩ true).1 = none := by simp [next, scanned]
        rw [stopped]
        constructor
        · intro h
          cases h
        · rintro ⟨same, closes⟩
          cases same
          exact absurd (closes_ending_iff.1 closes) (by simp)
    · rw [next_of_failed scanned, next_of_failed scanned]
      refine ⟨fun h => ⟨h, ?_⟩, fun h => h.1⟩
      cases h
      exact .failure _

/-- When a stop is requested after `k` calls, these give what they give without the request. Then
at most one more item comes out: the one that the next call gives without the request, if it
closes the stream. From there on nothing comes out, and no pass is open. -/
theorem stop_truncates (family : Family Automaton) (input : Input) (k n : Nat) :
    let free := (start family input).calls (List.replicate (k + (n + 1)) false)
    ∃ last, (start family input).calls (raisedAfter k (n + 1)) =
        free.take k ++ last :: List.replicate n none ∧
      (∀ item, last = some item ↔ free[k]? = some (some item) ∧ Closes item) ∧
      ((start family input).afterCalls (raisedAfter k (n + 1))).passes = [] := by
  intro free
  let before := List.replicate k false
  let reached := (start family input).afterCalls before
  have split : free = (start family input).calls before ++
      ((reached.next false).1 :: (reached.next false).2.calls (List.replicate n false)) := by
    simp only [free, before, List.replicate_add, List.replicate_succ, calls_append]
    rfl
  have length : ((start family input).calls before).length = k := by simp [before]
  have taken : free.take k = (start family input).calls before := by
    rw [split, List.take_left' length]
  have here : free[k]? = some (reached.next false).1 := by
    rw [split, List.getElem?_append_right (Nat.le_of_eq length), length, Nat.sub_self]
    rfl
  have closed := passes_next_true reached
  refine ⟨(reached.next true).1, ?_, fun item => ?_, ?_⟩
  · rw [taken, raisedAfter, calls_append, List.replicate_succ, calls, calls_of_finished closed,
      List.length_replicate]
  · rw [here, next_true_eq_some_iff, Option.some.injEq]
  · rw [raisedAfter, afterCalls_append, List.replicate_succ, afterCalls,
      afterCalls_of_finished closed, closed]

end Munch.Scanner
