import Munch.Proofs.Pass
import Munch.Scanner.Schedule

/-!
# What a scanner knows of its input

Only the outermost pass of a scanner reads the input; a pass inside it reads, if at all, an
empty one. A call of the scanner changes the innermost pass and passes opened by it, and leaves
the passes around as they were. So one invariant is enough: the outermost pass is right about
the end of the input.

## Main definitions

* `Scanner.sourceOf`: the input that a pass reads.
* `Scanner.Sound`: the outermost pass is right about the end of the input.
* `Scanner.Begins`: an attempt of one of the passes begins.
-/

namespace Munch.Scanner

variable {s t : Scanner} {p q : Pass} {m : Match} {around : List Pass} {input left : Input}

/-- The input that a pass reads, with the passes around it. -/
def sourceOf (around : List Pass) (input : Input) : Input :=
  if around.isEmpty then input else .empty

/-- The outermost pass is right about the end of the input. -/
def Sound (s : Scanner) : Prop := ∀ p ∈ s.passes.getLast?, p.Agrees s.input

/-- In the call behind those of the schedule an attempt begins, with passes around that of the
attempt: the first attempt of this call, or one behind a character that it skipped. -/
inductive Begins (s : Scanner) (schedule : List Bool) (around : List Pass) :
    Pass → Input → Prop where
  | call {p : Pass} : (s.afterCalls schedule).passes = p :: around →
    Begins s schedule around p (sourceOf around (s.afterCalls schedule).input)
  | skip {p q : Pass} {input left : Input} : Begins s schedule around p input →
    p.attempt input = (.inr q, left) → Begins s schedule around q left

theorem scanInnermost_eq (p : Pass) (around : List Pass) (input : Input) :
    scanInnermost p around input = ((p.scan (sourceOf around input)).1,
      if around.isEmpty then (p.scan (sourceOf around input)).2 else input) := by
  by_cases outermost : around.isEmpty <;> simp [scanInnermost, sourceOf, outermost]

theorem scan_of_scanInnermost {o : Outcome} (h : scanInnermost p around input = (o, left)) :
    p.scan (sourceOf around input) = (o, (p.scan (sourceOf around input)).2) := by
  rw [scanInnermost_eq] at h
  exact Prod.ext (Prod.ext_iff.1 h).1 rfl

theorem next_of_finished (h : s.passes = []) (stop : Bool) : s.next stop = (none, s) := by
  simp only [next, h]

theorem next_of_found (h : scanInnermost p around input = (.found m q, left)) :
    next ⟨input, p :: around⟩ false =
      (some (.ok ⟨some m.index, String.ofList m.text, m.pos, around.length⟩),
        ⟨left, opened q m ++ q :: around⟩) := by
  simp [next, h]

theorem next_of_exhausted {pos : Position}
    (h : scanInnermost p around input = (.exhausted pos, left)) :
    next ⟨input, p :: around⟩ false = (some (.ok (.ending pos around.length)), ⟨left, around⟩) := by
  simp [next, h]

/-- A failed read comes through a request to stop. -/
theorem next_of_failed {e : ReadError} {pos : Position}
    (h : scanInnermost p around input = (.failed e pos, left)) (stop : Bool) :
    next ⟨input, p :: around⟩ stop = (some (.error ⟨e, pos⟩), ⟨left, []⟩) := by
  simp [next, h]

theorem agrees_sourceOf (sound : Sound ⟨input, p :: around⟩) :
    p.Agrees (sourceOf around input) := by
  cases around with
  | nil => exact sound p (by simp)
  | cons q around => exact p.agrees_empty

theorem sound_start (family : Family Automaton) (input : Input) :
    (start family input).Sound := by
  intro p hp
  obtain rfl : Pass.outer family = p := by simpa [start] using hp
  exact Pass.agrees_outer family input

theorem sound_append (inner : List Pass) :
    Sound ⟨input, inner ++ p :: around⟩ ↔ Sound ⟨input, p :: around⟩ := by
  simp [Sound, List.getLast?_append]

/-- An inner pass leaves the input alone. -/
theorem input_of_scanInnermost {r : Pass} {o : Outcome}
    (h : scanInnermost p (r :: around) input = (o, left)) : left = input :=
  (Prod.ext_iff.1 h).2.symm

/-- The passes around the innermost one stay right. -/
theorem sound_around {o : Outcome} (sound : Sound ⟨input, p :: around⟩)
    (h : scanInnermost p around input = (o, left)) : Sound ⟨left, around⟩ := by
  cases around with
  | nil => exact fun _ none => by simp at none
  | cons r around =>
    rw [input_of_scanInnermost h]
    exact (sound_append [p]).1 sound

/-- A pass behind a match is as right as the pass was before. -/
theorem sound_found (sound : Sound ⟨input, p :: around⟩)
    (h : scanInnermost p around input = (.found m q, left)) : Sound ⟨left, q :: around⟩ := by
  cases around with
  | nil =>
    intro r hr
    obtain rfl : q = r := by simpa using hr
    exact Pass.agrees_of_scan (agrees_sourceOf sound) h
  | cons r around => exact (sound_append [q]).2 (sound_around sound h)

theorem failure_of_scanInnermost {o : Outcome} (sound : Sound ⟨input, p :: around⟩)
    (h : scanInnermost p around input = (o, left)) : left.failure = input.failure := by
  cases around with
  | nil =>
    obtain rfl : (p.scan input).2 = left := (Prod.ext_iff.1 h).2
    exact (Pass.leads_of_scan (agrees_sourceOf sound)).failure
  | cons r around => rw [input_of_scanInnermost h]

/-- A call keeps the outermost pass right, and the end of the input as it is. -/
theorem sound_next (sound : s.Sound) (stop : Bool) :
    (s.next stop).2.Sound ∧ (s.next stop).2.input.failure = s.input.failure := by
  obtain ⟨input, passes⟩ := s
  cases passes with
  | nil => exact ⟨sound, rfl⟩
  | cons p around =>
    rcases scanned : scanInnermost p around input with ⟨⟨m, q⟩ | pos | ⟨e, pos⟩, left⟩ <;>
      have kept := failure_of_scanInnermost sound scanned <;>
      simp only [next, scanned]
    · by_cases stopped : stop
      · simp only [if_pos stopped]
        exact ⟨fun _ h => by simp at h, kept⟩
      · simp only [if_neg stopped]
        exact ⟨(sound_append _).2 (sound_found sound scanned), kept⟩
    · by_cases stopped : stop && !around.isEmpty
      · simp only [if_pos stopped]
        exact ⟨fun _ h => by simp at h, kept⟩
      · simp only [if_neg stopped]
        exact ⟨sound_around sound scanned, kept⟩
    · exact ⟨fun _ h => by simp at h, kept⟩

/-- What every call preserves holds after any calls. -/
theorem afterCalls_induction {P : Scanner → Prop} (step : ∀ s stop, P s → P (s.next stop).2)
    (h : P s) (schedule : List Bool) : P (s.afterCalls schedule) := by
  induction schedule generalizing s with
  | nil => exact h
  | cons stop rest ih => exact ih (step s stop h)

theorem sound_afterCalls (sound : s.Sound) (schedule : List Bool) :
    (s.afterCalls schedule).Sound ∧ (s.afterCalls schedule).input.failure = s.input.failure := by
  have step : ∀ (t : Scanner) stop, t.Sound ∧ t.input.failure = s.input.failure →
      (t.next stop).2.Sound ∧ (t.next stop).2.input.failure = s.input.failure := by
    rintro t stop ⟨sound, same⟩
    obtain ⟨sound, kept⟩ := sound_next sound stop
    exact ⟨sound, kept.trans same⟩
  exact afterCalls_induction step ⟨sound, rfl⟩ schedule

/-- Wherever an attempt begins, its pass is right about the end of its input, and over a text
no read fails. -/
theorem agrees_of_begins {schedule : List Bool} (sound : s.Sound)
    (h : s.Begins schedule around p input) :
    p.Agrees input ∧ (s.input.failure = none → input.failure = none) := by
  induction h with
  | @call p passes =>
    obtain ⟨sound, kept⟩ := sound_afterCalls sound schedule
    generalize s.afterCalls schedule = t at *
    obtain ⟨input, _⟩ := t
    cases passes
    refine ⟨agrees_sourceOf sound, fun readable => ?_⟩
    cases around with
    | nil => exact kept.trans readable
    | cons q around => rfl
  | skip _ attempted ih =>
    cases Pass.tries_of_attempt ih.1 attempted with
    | skipped leads _ _ _ agreed =>
      exact ⟨agreed, fun readable => leads.failure.trans (ih.2 readable)⟩

end Munch.Scanner
