import Munch.Frame
import Munch.Pass

/-!
# The scanner

A scanner hands out frames one at a time. It keeps the passes under way, the innermost first.
A match of a member with an inner family opens a pass over the matched text; when that pass is
exhausted its end frame is handed out and the pass around it goes on. The end frame of the
outermost pass is the sentinel, after which nothing follows.

A stop may be requested at any time. The scanner looks at the request only when it has
something to hand out: a match or the end of an inner pass is then withheld and everything
ends, while the sentinel and a read failure still come through.

## Main definitions

* `Scanner.next`: the next result.
* `Scanner.supply`: a bound on the frames still to come.
* `Scanner.results`: all results, when no stop is requested.
-/

namespace Munch

/-- An input and the passes under way over it, the innermost first. -/
structure Scanner where
  input : Input
  passes : List Pass

namespace Scanner

/-- A scanner at the beginning of an input. -/
def start (family : Family Automaton) (input : Input) : Scanner :=
  { input, passes := [.outer family] }

/-- The scanner of an input over which nothing will be handed out any more. -/
@[simp] def finished (input : Input) : Scanner := { input, passes := [] }

/-- The pass that a match opens, if the member that matched has an inner family. -/
def opened (p : Pass) (m : Match) : List Pass :=
  (p.family.inner? m.index).toList.map fun inner => .inner inner m

/-- Only the outermost pass reads the input; `around` are the passes around `p`. -/
def scanInnermost (p : Pass) (around : List Pass) (input : Input) : Outcome × Input :=
  if around.isEmpty then p.scan input else ((p.scan .empty).1, input)

/-- The next result; `none` if nothing follows. The request to stop counts as it stands when
there is something to hand out. -/
def next (s : Scanner) (stop : Bool) : Option (Except ScanError Frame) × Scanner :=
  match s.passes with
  | [] => (none, s)
  | p :: around =>
    match scanInnermost p around s.input with
    | (.found m q, input) =>
      if stop then (none, finished input)
      else (some (.ok ⟨some m.index, String.ofList m.text, m.pos, around.length⟩),
        ⟨input, opened q m ++ q :: around⟩)
    | (.exhausted pos, input) =>
      if stop && !around.isEmpty then (none, finished input)
      else (some (.ok (.ending pos around.length)), ⟨input, around⟩)
    | (.failed e pos, input) => (some (.error ⟨e, pos⟩), finished input)

/-- The characters that a pass has still to consume; only the outermost one has any unread. -/
def remaining (p : Pass) (around : List Pass) (input : Input) : Nat :=
  p.buffer.length + if around.isEmpty then input.rest.length else 0

/-- A bound on the frames that passes over an input have still to hand out: every character
can be matched once at each depth, each match can open a pass, and each pass ends. -/
def supplyOf (input : Input) : List Pass → Nat
  | [] => 0
  | p :: around =>
    (2 * p.family.height + 1) * remaining p around input + 1 + supplyOf input around

/-- A bound on the frames still to come. -/
def supply (s : Scanner) : Nat := supplyOf s.input s.passes

section Supply

variable {p q : Pass} {m : Match} {around : List Pass} {input left : Input}

theorem scanInnermost_found (h : scanInnermost p around input = (.found m q, left)) :
    0 < m.text.length ∧ q.family = p.family ∧
      m.text.length + remaining q around left ≤ remaining p around input := by
  rw [scanInnermost] at h
  split at h
  · next outermost =>
    obtain ⟨skipped, tiles, nonempty, -, -, family, -⟩ := Pass.tiles_of_scan h
    have := congrArg List.length tiles
    simp only [List.length_append] at this
    refine ⟨List.length_pos_iff.2 nonempty, family, ?_⟩
    simp only [remaining, outermost, ↓reduceIte]
    omega
  · next inner =>
    have scanned : p.scan .empty = (.found m q, (p.scan .empty).2) :=
      Prod.ext (Prod.ext_iff.1 h).1 rfl
    obtain ⟨skipped, tiles, nonempty, -, -, family, -⟩ := Pass.tiles_of_scan scanned
    have := congrArg List.length tiles
    simp only [List.length_append, Input.empty, List.length_nil] at this
    refine ⟨List.length_pos_iff.2 nonempty, family, ?_⟩
    simp only [remaining, inner, Bool.false_eq_true, ↓reduceIte]
    omega

theorem supplyOf_around {outcome : Outcome}
    (h : scanInnermost p around input = (outcome, left)) :
    supplyOf left around = supplyOf input around := by
  cases around with
  | nil => rfl
  | cons q around => cases h; rfl

/-- A match costs a frame for each of its characters and, if it opens a pass, as many again at
every depth below. -/
theorem opening_lt {outer inner length rest before : Nat} (h : inner < outer) (pos : 0 < length)
    (le : length + rest ≤ before) :
    (2 * inner + 1) * length + 1 + ((2 * outer + 1) * rest + 1) < (2 * outer + 1) * before + 1 := by
  have h₁ : (2 * inner + 1) * length + 2 * length ≤ (2 * outer + 1) * length := by
    rw [← Nat.add_mul]
    exact Nat.mul_le_mul_right _ (by omega)
  have h₂ := Nat.mul_le_mul_left (2 * outer + 1) le
  rw [Nat.mul_add] at h₂
  omega

theorem supplyOf_found (h : scanInnermost p around input = (.found m q, left)) :
    supplyOf left (opened q m ++ q :: around) < supplyOf input (p :: around) := by
  obtain ⟨pos, family, le⟩ := scanInnermost_found h
  have outer := supplyOf_around h
  have step := Nat.mul_le_mul_left (2 * p.family.height + 1) le
  rw [Nat.mul_add] at step
  have progress : 0 < (2 * p.family.height + 1) * m.text.length := Nat.mul_pos (by omega) pos
  cases hm : p.family.inner? m.index with
  | none =>
    have none_opened : opened q m = [] := by simp [opened, family, hm]
    simp only [none_opened, List.nil_append, supplyOf, family, outer]
    omega
  | some f =>
    have one_opened : opened q m = [.inner f m] := by simp [opened, family, hm]
    have own : remaining (.inner f m) (q :: around) left = m.text.length := by
      simp [remaining, Pass.inner]
    have := opening_lt (Family.height_lt_of_inner? hm) pos le
    simp only [one_opened, List.cons_append, List.nil_append, supplyOf, own, family, outer]
    simp only [Pass.inner]
    omega

/-- Every frame uses up some of the supply. -/
theorem supply_next_lt {s t : Scanner} {stop : Bool} {f : Frame}
    (h : s.next stop = (some (.ok f), t)) : t.supply < s.supply := by
  obtain ⟨input, passes⟩ := s
  cases passes with
  | nil => cases h
  | cons p around =>
    simp only [next] at h
    split at h
    · next found =>
      split at h
      · cases h
      · cases h
        exact supplyOf_found found
    · next exhausted =>
      split at h
      · cases h
      · cases h
        have := supplyOf_around exhausted
        simp only [supply, supplyOf, this]
        omega
    · cases h

/-- Nothing is left after a failure. -/
theorem supply_next_error {s t : Scanner} {stop : Bool} {e : ScanError}
    (h : s.next stop = (some (.error e), t)) : t.supply = 0 := by
  obtain ⟨input, passes⟩ := s
  cases passes with
  | nil => cases h
  | cons p around =>
    simp only [next] at h
    split at h
    · split at h <;> cases h
    · split at h <;> cases h
    · cases h; rfl

end Supply

/-- All results in order, when no stop is requested. -/
def results (s : Scanner) : List (Except ScanError Frame) :=
  match h : s.next false with
  | (none, _) => []
  | (some (.error e), _) => [.error e]
  | (some (.ok f), t) =>
    have := supply_next_lt h
    .ok f :: results t
termination_by s.supply

end Scanner
end Munch
