import Munch.Proofs.Scanner
import Munch.Proofs.Walk

/-!
# The stream ends

`Scanner.supply` bounds what a scanner has still to hand out. Every item uses up some of it, and
a call that hands out nothing leaves nothing to hand out. So the calls of a run, whenever a stop
may be requested in between, hand out items one after the other and from then on nothing. That a
call returns at all is a matter of its loops: a scan tries at most once more than there are
characters ahead, an attempt reads at most once more than there are characters to read, and the
walks along silent links end although these may run in circles.

## Main definitions

* `Attempt.Reads`, `Pass.Returns`: reading on ends after a number of reads, a scan after a number
  of attempts.
* `Scanner.calls_bounded`: what the calls of a run hand out, at most and in which shape.
-/

namespace Munch

namespace Attempt

/-- Reading on ends, with a result, after a number of reads. -/
inductive Reads : Nat → Attempt → Array Char → Input →
    Except ReadError (Attempt × Array Char × Bool) × Input → Prop where
  | dead {a : Attempt} {read : Array Char} {input : Input} : a.live.isEmpty →
    Reads 0 a read input (.ok (a, read, false), input)
  | char {n : Nat} {a : Attempt} {read : Array Char} {input left : Input} {c : Char}
    {r : Except ReadError (Attempt × Array Char × Bool) × Input} : ¬a.live.isEmpty →
    input.read = (.ok (some c), left) → Reads n (a.take c) (read.push c) left r →
    Reads (n + 1) a read input r
  | ended {a : Attempt} {read : Array Char} {input left : Input} : ¬a.live.isEmpty →
    input.read = (.ok none, left) → Reads 1 a read input (.ok (a.close, read, true), left)
  | failed {a : Attempt} {read : Array Char} {input left : Input} {e : ReadError} :
    ¬a.live.isEmpty → input.read = (.error e, left) → Reads 1 a read input (.error e, left)

theorem reads_readOn (a : Attempt) (read : Array Char) (input : Input) :
    ∃ n ≤ input.rest.length + 1, Reads n a read input (a.readOn read input) := by
  induction a, read, input using readOn.induct with
  | case1 a read input dead =>
    rw [readOn_of_dead dead]
    exact ⟨0, Nat.zero_le _, .dead dead⟩
  | case2 a read input live c left hr _ ih =>
    obtain ⟨n, le, reads⟩ := ih
    rw [readOn_of_char live hr, Input.rest_of_read_some hr]
    exact ⟨n + 1, Nat.succ_le_succ le, .char live hr reads⟩
  | case3 a read input live left hr =>
    rw [readOn_of_end live hr]
    exact ⟨1, Nat.le_add_left _ _, .ended live hr⟩
  | case4 a read input live e left hr =>
    rw [readOn_of_failure live hr]
    exact ⟨1, Nat.le_add_left _ _, .failed live hr⟩

end Attempt

namespace Pass

variable {p q : Pass} {input left : Input}

/-- A scan ends, with an outcome, after a number of attempts. -/
inductive Returns : Nat → Pass → Input → Outcome × Input → Prop where
  | ending {p : Pass} {input left : Input} {o : Outcome} : p.attempt input = (.inl o, left) →
    Returns 1 p input (o, left)
  | skip {n : Nat} {p q : Pass} {input left : Input} {r : Outcome × Input} :
    p.attempt input = (.inr q, left) → Returns n q left r → Returns (n + 1) p input r

theorem returns_scan (agrees : p.Agrees input) :
    ∃ n ≤ (p.ahead input).length + 1, Returns n p input (p.scan input) := by
  induction p, input, agrees using scan_induction with
  | ending p input agrees o left attempted =>
    rw [scan_of_ending attempted]
    exact ⟨1, Nat.le_add_left _ _, .ending attempted⟩
  | skip p input agrees q left agreed attempted ih =>
    obtain ⟨n, le, returns⟩ := ih
    rw [scan_of_skipping attempted]
    cases tries_of_attempt agrees attempted with
    | skipped _ _ _ first _ settled =>
      have shorter : q.ahead left = _ := congrArg Pass.buffer settled
      refine ⟨n + 1, ?_, .skip attempted returns⟩
      rw [shorter] at le
      rw [first, List.length_cons]
      exact Nat.succ_le_succ le

end Pass

namespace Scanner

variable {s t : Scanner}

/-- A call that hands out nothing leaves nothing to hand out. -/
theorem passes_of_next_none {stop : Bool} (h : s.next stop = (none, t)) : t.passes = [] := by
  obtain ⟨input, passes⟩ := s
  cases passes with
  | nil => cases h; rfl
  | cons p around =>
    simp only [next] at h
    split at h
    · split at h <;> cases h
      rfl
    · split at h <;> cases h
      rfl
    · cases h

/-- A scanner without passes is silent. -/
theorem calls_of_finished (h : s.passes = []) (schedule : List Bool) :
    s.calls schedule = List.replicate schedule.length none := by
  induction schedule with
  | nil => rfl
  | cons stop rest ih =>
    rw [calls, next_of_finished h, ih]
    rfl

/-- A scanner without passes stays as it is. -/
theorem afterCalls_of_finished (h : s.passes = []) (schedule : List Bool) :
    s.afterCalls schedule = s := by
  induction schedule with
  | nil => rfl
  | cons stop rest ih =>
    rw [afterCalls, next_of_finished h, ih]

/-- An item uses up some of the supply. -/
theorem supply_lt_of_item {stop : Bool} {item : Except ScanError Frame}
    (h : s.next stop = (some item, t)) : t.supply < s.supply := by
  cases item with
  | ok f => exact supply_next_lt h
  | error e =>
    rw [supply_next_error h]
    obtain ⟨input, passes⟩ := s
    cases passes with
    | nil => cases h
    | cons p around => simp only [supply, supplyOf]; omega

/-- Calls hand out items, no more than the supply, and then nothing. -/
theorem calls_eq_items (s : Scanner) (schedule : List Bool) :
    ∃ (items : List (Except ScanError Frame)) (silent : Nat),
      s.calls schedule = items.map some ++ List.replicate silent none ∧
        items.length ≤ s.supply := by
  induction schedule generalizing s with
  | nil => exact ⟨[], 0, rfl, Nat.zero_le _⟩
  | cons stop rest ih =>
    rcases called : s.next stop with ⟨_ | item, t⟩
    · refine ⟨[], rest.length + 1, ?_, Nat.zero_le _⟩
      rw [calls, called, calls_of_finished (passes_of_next_none called)]
      rfl
    · obtain ⟨items, silent, rest_eq, le⟩ := ih t
      have := supply_lt_of_item called
      refine ⟨item :: items, silent, ?_, ?_⟩
      · rw [calls, called, rest_eq]
        rfl
      · rw [List.length_cons]
        omega

theorem supply_start (family : Family Automaton) (input : Input) :
    (start family input).supply = (2 * family.height + 1) * input.rest.length + 1 := by
  simp [supply, supplyOf, start, remaining, Pass.outer]

/-- Whenever a stop is requested, calls hand out at most one item more than `2h + 1` for each
character, where `h` is the height of the family, and from then on nothing. Every call returns:
wherever a run has come, the next scan ends after at most one attempt more than there are
characters ahead; reading on ends; and so does every walk along silent links. -/
theorem calls_bounded (family : Family Automaton) (input : Input) (schedule : List Bool) :
    (∃ (items : List (Except ScanError Frame)) (silent : Nat),
      (start family input).calls schedule = items.map some ++ List.replicate silent none ∧
        items.length ≤ (2 * family.height + 1) * input.rest.length + 1) ∧
    (∀ p around, ((start family input).afterCalls schedule).passes = p :: around →
      let source := sourceOf around ((start family input).afterCalls schedule).input
      ∃ n ≤ (p.ahead source).length + 1, Pass.Returns n p source (p.scan source)) ∧
    (∀ (a : Attempt) (read : Array Char) (source : Input),
      ∃ n ≤ source.rest.length + 1, Attempt.Reads n a read source (a.readOn read source)) ∧
    ∀ a : Automaton, Automaton.Walks (Automaton.startLink a.states) [] (some 0) a.startChain ∧
      ∀ q, Automaton.Walks (Automaton.endLink a.states) [q] (Automaton.endLink a.states q)
        (a.endChain q) := by
  refine ⟨?_, ?_, Attempt.reads_readOn, fun a => ⟨a.walks_startChain, a.walks_endChain⟩⟩
  · rw [← supply_start]
    exact calls_eq_items _ schedule
  · intro p around passes
    exact Pass.returns_scan (agrees_of_begins (sound_start family input) (.call passes)).1

end Scanner
end Munch
