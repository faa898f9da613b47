import Mathlib.Data.List.Induction
import Munch.Proofs.Listing
import Munch.Proofs.Stop
import Munch.Scanner.Course

/-!
# Maximal munch in every attempt

In every attempt of every pass of every run the scanner takes the offer that maximal munch
prefers, or it skips exactly one character because nothing is offered. The offers are those of
the family's language at the front of what the attempts before left of the text, with start links
open to the first attempt of a pass. Both are told by the course of the run: a pass keeps what is
ahead of it and a mark for its first attempt, and these stay in step with what became of the pass,
through calls and while passes inside it are under way. How far the scanner has read does not count.

## Main statements

* `Stage.munches_of_readable`: maximal munch for a single attempt.
* `Scanner.course_afterCalls`: the passes of a scanner stay in step with the course of the run.
* `Scanner.scan_takes_preferred`: maximal munch along every run over a text.
-/

namespace Munch

open Candidate (IsBest)

theorem Family.prefers_iff {f : Family Automaton} {fresh final : Bool} {rest : List Char}
    {c : Candidate} : f.Prefers fresh final rest c ↔
      IsBest (f.Offers fresh final rest) (some c) :=
  ⟨fun h => ⟨h.offers, h.beats⟩, fun h => ⟨h.1, h.2⟩⟩

namespace Pass

variable {p q : Pass} {input left : Input}

/-- What is offered to the attempt of a pass, up to the end of its text. -/
def Offers (p : Pass) (input : Input) (c : Candidate) : Prop :=
  p.family.Offers p.fresh true (p.ahead input) c

theorem isBest_overview (p : Pass) (input : Input) :
    IsBest (p.Offers input) (p.overview input).close.best :=
  Attempt.isBest_close_feed p.family p.fresh (p.ahead input)

/-- While no read fails, passes with the same ahead come to the same. -/
theorem outcome_congr {i j : Input} (agrees : p.Agrees i) (agrees' : q.Agrees j)
    (readable : i.failure = none) (readable' : j.failure = none)
    (same : p.settle i = q.settle j) : p.outcome i = q.outcome j := by
  have left := scan_settle agrees readable .empty
  have right := scan_settle agrees' readable' .empty
  rw [same, right] at left
  exact (Prod.ext_iff.1 left).1.symm

end Pass

/-! ## Single attempts -/

namespace Stage

variable {v : Stage} {p : Pass} {input : Input}

theorem Offers.rest_ne_nil {c : Candidate} (h : v.Offers c) : v.rest ≠ [] := by
  have pos := h.pos
  have le := h.le
  exact List.ne_nil_of_length_pos (by omega)

/-- How an attempt ends that is made of a pass which owns its text. -/
inductive Ends (v : Stage) : Outcome ⊕ Pass → Prop where
  | found {c : Candidate} : v.Prefers c →
    Ends v (.inl (.found (v.taken c) (v.consume c.length).pass))
  | skipped : (∀ c, ¬v.Offers c) → v.rest ≠ [] → Ends v (.inr (v.consume 1).pass)
  | exhausted : v.rest = [] → Ends v (.inl (.exhausted v.pos))

theorem ends_verdict (v : Stage) : v.Ends v.pass.verdict := by
  obtain ⟨family, attempts, rest, pos⟩ := v
  have best := Attempt.isBest_close_feed family (attempts == 0) rest
  rw [Pass.verdict]
  generalize chosen : (pass _).atHand.close.best = candidate
  have here : ((Attempt.start family (attempts == 0)).feed rest).close.best = candidate := chosen
  rw [here] at best
  cases candidate with
  | some c => exact .found (Family.prefers_iff.2 best)
  | none =>
    cases rest with
    | nil => exact .exhausted rfl
    | cons c cs => exact .skipped best (List.cons_ne_nil c cs)

theorem attempt_pass (v : Stage) : ∃ r, v.Ends r ∧ v.pass.attempt .empty = (r, .empty) :=
  ⟨_, v.ends_verdict, Pass.attempt_of_ended rfl .empty⟩

theorem scan_of_prefers {c : Candidate} (prefers : v.Prefers c) :
    v.pass.scan .empty = (.found (v.taken c) (v.consume c.length).pass, .empty) := by
  obtain ⟨_, ends, attempted⟩ := v.attempt_pass
  cases ends with
  | found prefers' =>
    obtain rfl := prefers.unique prefers'
    exact Pass.scan_of_ending attempted
  | skipped none _ => exact absurd prefers.offers (none c)
  | exhausted nothing => exact absurd nothing (Offers.rest_ne_nil prefers.offers)

theorem scan_of_exhausted (nothing : v.rest = []) :
    v.pass.scan .empty = (.exhausted v.pos, .empty) := by
  obtain ⟨_, ends, attempted⟩ := v.attempt_pass
  cases ends with
  | found prefers => exact absurd nothing (Offers.rest_ne_nil prefers.offers)
  | skipped _ more => exact absurd nothing more
  | exhausted _ => exact Pass.scan_of_ending attempted

/-- Maximal munch in one attempt of the pass, which begins with `p` and the input: the scan takes
the preferred offer, or it goes on behind one character if nothing is offered, or the text is
exhausted. The pass that goes on has come as far as that. -/
structure Munches (v : Stage) (p : Pass) (input : Input) : Prop where
  prefers : (∃ c, v.Offers c) → ∃ c, v.Prefers c
  found : ∀ c, v.Prefers c → ∃ q left,
    p.scan input = (.found ⟨c.index, v.rest.take c.length, v.pos⟩ q, left) ∧
    q.settle left = (v.consume c.length).pass
  skipped : (¬∃ c, v.Offers c) → v.rest ≠ [] → ∃ q left,
    p.attempt input = (.inr q, left) ∧ p.scan input = q.scan left ∧
    q.settle left = (v.consume 1).pass
  exhausted : v.rest = [] → ∃ left, p.scan input = (.exhausted v.pos, left)

theorem munches_of_readable (agrees : p.Agrees input) (readable : input.failure = none)
    (same : p.settle input = v.pass) : v.Munches p input := by
  have ends := v.ends_verdict
  rw [← same, (p.tries_attempt agrees).verdict readable] at ends
  rcases attempted : p.attempt input with ⟨(⟨m, q⟩ | pos | ⟨e, pos⟩) | q, left⟩ <;>
    simp only [attempted, Sum.map_inl, Sum.map_inr, Outcome.settle] at ends
  · generalize settled : q.settle left = behind at ends
    cases ends with
    | @found c prefers =>
      refine ⟨fun _ => ⟨c, prefers⟩, fun d hd => ?_, fun none => absurd ⟨c, prefers.offers⟩ none,
        fun nothing => absurd nothing (Offers.rest_ne_nil prefers.offers)⟩
      obtain rfl := prefers.unique hd
      exact ⟨q, left, Pass.scan_of_ending attempted, settled⟩
  · cases ends with
    | exhausted nothing =>
      have none (c : Candidate) (offered : v.Offers c) : False := offered.rest_ne_nil nothing
      refine ⟨fun some => (some.elim none).elim, fun c hc => (none c hc.offers).elim,
        fun _ more => absurd nothing more, fun _ => ⟨left, Pass.scan_of_ending attempted⟩⟩
  · cases ends
  · generalize settled : q.settle left = behind at ends
    cases ends with
    | skipped none more =>
      exact ⟨fun some => (some.elim none).elim, fun c hc => absurd hc.offers (none c),
        fun _ _ => ⟨q, left, attempted, Pass.scan_of_skipping attempted, settled⟩,
        fun nothing => absurd nothing more⟩

end Stage

/-! ## Calls and runs -/

section Run

variable {family : Family Automaton} {text : List Char} {frames : List Frame}
  {stages : List Stage} {v : Stage}

/-- Along the course the attempts of one scan lead to the one that ends it. -/
theorem Course.exists_ending (course : Course family text frames (v :: stages)) :
    ∃ w, Course family text frames (w :: stages) ∧ v.pass.scan .empty = w.pass.scan .empty ∧
      ((∃ c, w.Prefers c) ∨ w.rest = []) := by
  induction length : v.rest.length using Nat.strongRecOn generalizing v with
  | _ n ih =>
    obtain ⟨_, ends, attempted⟩ := v.attempt_pass
    cases ends with
    | found prefers => exact ⟨v, course, rfl, .inl ⟨_, prefers⟩⟩
    | exhausted nothing => exact ⟨v, course, rfl, .inr nothing⟩
    | skipped none more =>
      have fewer : (v.consume 1).rest.length < n := by
        have := List.length_pos_iff.2 more
        simp only [Stage.consume, List.length_drop]
        omega
      rw [Pass.scan_of_skipping attempted]
      exact ih _ fewer (course.skip none more) rfl

namespace Scanner

variable {s : Scanner} {p q : Pass} {m : Match} {around : List Pass} {input left : Input}

/-- The passes under way, each with everything ahead in its buffer. -/
def settledOf (input : Input) : List Pass → List Pass
  | [] => []
  | p :: around => p.settle (sourceOf around input) :: settledOf input around

@[simp] theorem length_settledOf (input : Input) (passes : List Pass) :
    (settledOf input passes).length = passes.length := by
  induction passes with
  | nil => rfl
  | cons p around ih => rw [settledOf, List.length_cons, ih, List.length_cons]

theorem settledOf_around {o : Outcome} (h : scanInnermost p around input = (o, left)) :
    settledOf left around = settledOf input around := by
  cases around with
  | nil => rfl
  | cons r around => rw [input_of_scanInnermost h]

/-- A pass that a match opens has come as far as the course says. -/
theorem settledOf_opened {w : Stage} {c : Candidate} (family : q.family = w.family)
    (around : List Pass) (input : Input) :
    settledOf input (opened q (w.taken c) ++ q :: around) =
      (w.opened c).map Stage.pass ++ settledOf input (q :: around) := by
  have index : (w.taken c).index = c.index := rfl
  rw [opened, Stage.opened, family, index]
  cases w.family.inner? c.index with
  | none => rfl
  | some inner =>
    have owns : (Pass.inner inner (w.taken c)).settle (sourceOf (q :: around) input) =
        .inner inner (w.taken c) := Pass.settle_of_ended rfl
    simp only [Option.toList_some, List.map_cons, List.map_nil, List.cons_append, List.nil_append,
      settledOf, owns]
    rfl

/-- The frame of a match, and the passes behind it. -/
theorem next_of_prefers (sound : Sound ⟨input, p :: around⟩) (readable : input.failure = none)
    (same : settledOf input around = stages.map Stage.pass) {w : Stage} {c : Candidate}
    (prefers : w.Prefers c)
    (scan : (p.settle (sourceOf around input)).scan .empty = w.pass.scan .empty) :
    ∃ t, next ⟨input, p :: around⟩ false = (some (.ok ⟨some c.index,
        String.ofList (w.rest.take c.length), w.pos, stages.length⟩), t) ∧
      settledOf t.input t.passes = (w.opened c ++ w.consume c.length :: stages).map Stage.pass := by
  rcases scanned : scanInnermost p around input with ⟨o, left⟩
  rw [settled_scan (agrees_sourceOf sound) (readable_sourceOf around readable) scanned,
    Stage.scan_of_prefers prefers, Prod.mk.injEq] at scan
  cases o with
  | found m q =>
    simp only [Outcome.settle, Outcome.found.injEq] at scan
    obtain ⟨⟨rfl, behind⟩, -⟩ := scan
    have family : q.family = w.family := congrArg Pass.family behind
    have length : around.length = stages.length := by
      rw [← length_settledOf input around, same, List.length_map]
    refine ⟨_, by rw [next_of_found scanned, length]; rfl, ?_⟩
    simp only [settledOf_opened family, settledOf, behind, settledOf_around scanned, same,
      List.map_append, List.map_cons]
  | exhausted pos => cases scan.1
  | failed e pos => cases scan.1

/-- The frame at the end of a pass, and the passes behind it. -/
theorem next_of_nothing (sound : Sound ⟨input, p :: around⟩) (readable : input.failure = none)
    (same : settledOf input around = stages.map Stage.pass) {w : Stage} (nothing : w.rest = [])
    (scan : (p.settle (sourceOf around input)).scan .empty = w.pass.scan .empty) :
    ∃ t, next ⟨input, p :: around⟩ false = (some (.ok (.ending w.pos stages.length)), t) ∧
      settledOf t.input t.passes = stages.map Stage.pass := by
  rcases scanned : scanInnermost p around input with ⟨o, left⟩
  rw [settled_scan (agrees_sourceOf sound) (readable_sourceOf around readable) scanned,
    Stage.scan_of_exhausted nothing, Prod.mk.injEq] at scan
  cases o with
  | found m q => cases scan.1
  | exhausted pos =>
    obtain rfl : pos = w.pos := Outcome.exhausted.inj scan.1
    have length : around.length = stages.length := by
      rw [← length_settledOf input around, same, List.length_map]
    exact ⟨_, by rw [next_of_exhausted scanned, length], (settledOf_around scanned).trans same⟩
  | failed e pos => cases scan.1

/-- A call keeps the passes in step with the course, or it closes them. -/
theorem course_next (sound : s.Sound) (readable : s.input.failure = none)
    (course : Course family text frames stages)
    (same : settledOf s.input s.passes = stages.map Stage.pass) (stop : Bool) :
    (s.next stop).2.passes = [] ∨ ∃ f stages', (s.next stop).1 = some (.ok f) ∧
      Course family text (frames ++ [f]) stages' ∧
      settledOf (s.next stop).2.input (s.next stop).2.passes = stages'.map Stage.pass := by
  cases stop with
  | true => exact .inl s.passes_next_true
  | false =>
    obtain ⟨input, passes⟩ := s
    cases passes with
    | nil => exact .inl rfl
    | cons p around =>
      cases stages with
      | nil => cases same
      | cons v stages =>
        obtain ⟨first, others⟩ := List.cons.inj same
        obtain ⟨w, course, scan, ⟨c, prefers⟩ | nothing⟩ := course.exists_ending
        · rw [← first] at scan
          obtain ⟨t, called, same'⟩ := next_of_prefers sound readable others prefers scan
          rw [called]
          exact .inr ⟨_, _, rfl, .found course prefers, same'⟩
        · rw [← first] at scan
          obtain ⟨t, called, same'⟩ := next_of_nothing sound readable others nothing scan
          rw [called]
          exact .inr ⟨_, _, rfl, .exhausted course nothing, same'⟩

/-- The passes under way behind any calls are those of the course of the run, unless all are
closed. -/
theorem course_afterCalls (family : Family Automaton) (text : String) (schedule : List Bool) :
    let s := start family (.ofString text)
    (s.afterCalls schedule).passes = [] ∨ ∃ frames stages,
      s.calls schedule = frames.map (some ∘ .ok) ∧ Course family text.toList frames stages ∧
      settledOf (s.afterCalls schedule).input (s.afterCalls schedule).passes =
        stages.map Stage.pass := by
  intro s
  induction schedule using List.reverseRecOn with
  | nil => exact .inr ⟨[], _, rfl, .start, rfl⟩
  | append_singleton schedule stop ih =>
    rw [afterCalls_append, calls_append]
    obtain ⟨sound, kept⟩ := sound_afterCalls (sound_start family (.ofString text)) schedule
    simp only [calls, afterCalls]
    obtain closed | ⟨frames, stages, handed, course, same⟩ := ih
    · left
      rwa [next_of_finished closed]
    · obtain closed | ⟨f, stages', frame, course', same'⟩ := course_next sound kept course same stop
      · exact .inl closed
      · refine .inr ⟨frames ++ [f], stages', ?_, course', same'⟩
        rw [handed, frame, List.map_append]
        rfl

/-- Behind the calls of the schedule a run has come along the course, and an attempt begins with `p`
and the input. The innermost pass of the course is `v`. -/
structure OnCourse (s : Scanner) (schedule : List Bool) (around : List Pass) (p : Pass)
    (input : Input) (frames : List Frame) (v : Stage) (stages : List Stage) : Prop where
  /-- The calls handed out the frames of the course. -/
  handed : s.calls schedule = frames.map (some ∘ .ok)
  /-- The attempt begins with what became of the pass. -/
  here : p.settle input = v.pass
  /-- The passes around are as they were left. -/
  waiting : settledOf (s.afterCalls schedule).input around = stages.map Stage.pass

theorem scan_of_begins {schedule : List Bool} (h : s.Begins schedule around p input) :
    ∃ q, (s.afterCalls schedule).passes = q :: around ∧
      q.scan (sourceOf around (s.afterCalls schedule).input) = p.scan input := by
  induction h with
  | call passes => exact ⟨_, passes, rfl⟩
  | skip _ attempted ih =>
    obtain ⟨q, passes, same⟩ := ih
    exact ⟨q, passes, same.trans (Pass.scan_of_skipping attempted)⟩

/-- Wherever an attempt begins, its pass and those around it are in step with the course. -/
theorem onCourse_of_begins {text : String} {schedule : List Bool}
    (begins : (start family (.ofString text)).Begins schedule around p input) :
    ∃ frames v stages, Course family text.toList frames (v :: stages) ∧
      (start family (.ofString text)).OnCourse schedule around p input frames v stages := by
  induction begins with
  | call passes =>
    obtain closed | ⟨frames, stages, handed, course, same⟩ := course_afterCalls family text schedule
    · rw [passes] at closed
      cases closed
    · rw [passes] at same
      cases stages with
      | nil => cases same
      | cons v stages =>
        obtain ⟨first, others⟩ := List.cons.inj same
        exact ⟨frames, v, stages, course, handed, first, others⟩
  | @skip p q input left before attempted ih =>
    obtain ⟨frames, v, stages, course, handed, same, others⟩ := ih
    obtain ⟨agrees, readable⟩ := agrees_of_begins (sound_start family _) before
    have ends := v.ends_verdict
    rw [← same, (Pass.tries_of_attempt agrees attempted).verdict (readable rfl)] at ends
    simp only [Sum.map_inr] at ends
    generalize settled : q.settle left = behind at ends
    cases ends with
    | skipped none more =>
      exact ⟨frames, _, stages, course.skip none more, handed, settled, others⟩

/-- Wherever an attempt begins in a run over a text, the scan takes the preferred offer or skips
a character at which nothing is offered. What is offered is told by the course of the run up to
there: by what the attempts before left of the text of the pass, and by whether there were any since
it was opened. The call leaves the passes as the course goes on, so each of them begins its next
attempt where its last one ended. Two attempts with the same ahead, in whatever runs and however far
these have read, come to the same. -/
theorem scan_takes_preferred {text : String} {schedule : List Bool}
    (begins : (start family (.ofString text)).Begins schedule around p input) :
    (∃ frames v stages, Course family text.toList frames (v :: stages) ∧
      (start family (.ofString text)).OnCourse schedule around p input frames v stages ∧
      v.Munches p input ∧
      let t := (start family (.ofString text)).afterCalls (schedule ++ [false])
      (∀ c, v.Prefers c → settledOf t.input t.passes =
        (v.opened c ++ v.consume c.length :: stages).map Stage.pass) ∧
      (v.rest = [] → settledOf t.input t.passes = stages.map Stage.pass)) ∧
    ∀ (family' : Family Automaton) (text' : String) (schedule' : List Bool)
      (around' : List Pass) (q : Pass) (other : Input),
      (start family' (.ofString text')).Begins schedule' around' q other →
      q.settle other = p.settle input → q.outcome other = p.outcome input := by
  obtain ⟨agrees, readable⟩ := agrees_of_begins (sound_start family _) begins
  obtain ⟨frames, v, stages, course, onCourse⟩ := onCourse_of_begins begins
  refine ⟨⟨frames, v, stages, course, onCourse,
    Stage.munches_of_readable agrees (readable rfl) onCourse.here, ?_⟩, ?_⟩
  · obtain ⟨q, passes, scan⟩ := scan_of_begins begins
    obtain ⟨sound, kept⟩ := sound_afterCalls (sound_start family (.ofString text)) schedule
    have waiting := onCourse.waiting
    rw [afterCalls_append]
    simp only [afterCalls]
    generalize afterCalls _ schedule = s at passes scan sound kept waiting
    obtain ⟨input', _⟩ := s
    obtain rfl := passes
    have same : (q.settle (sourceOf around input')).scan .empty = v.pass.scan .empty := by
      rw [← onCourse.here, Pass.scan_settle agrees (readable rfl),
        Pass.scan_settle (agrees_sourceOf sound) (readable_sourceOf around kept), Pass.outcome,
        Pass.outcome, scan]
    refine ⟨fun c prefers => ?_, fun nothing => ?_⟩
    · obtain ⟨t, called, left⟩ := next_of_prefers sound kept waiting prefers same
      rwa [called]
    · obtain ⟨t, called, left⟩ := next_of_nothing sound kept waiting nothing same
      rwa [called]
  · intro family' text' schedule' around' q other begins' same
    obtain ⟨agrees', readable'⟩ := agrees_of_begins (sound_start family' _) begins'
    exact Pass.outcome_congr agrees' agrees (readable' rfl) (readable rfl) same

end Scanner

end Run

/-- Accepts the texts `a` and `abc`. -/
def Automaton.aOrAbc : Automaton where
  states := #[{ edges := [⟨'a', 'a', some 1⟩] },
    { accepting := true, edges := [⟨'b', 'b', some 2⟩] },
    { edges := [⟨'c', 'c', some 3⟩] },
    { accepting := true }]
  nonempty := by simp
  wellFormed := by simp [Automaton.State.WellFormed, Automaton.Edge.WellFormed]
  silent := by decide

/-- Accepts the text `a`, and at the start of a text `b`. -/
def Automaton.aOrOpeningB : Automaton where
  states := #[{ edges := [⟨'a', 'a', some 1⟩], start := some 2 }, { accepting := true },
    { edges := [⟨'b', 'b', some 1⟩] }]
  nonempty := by simp
  wellFormed := by simp [Automaton.State.WellFormed, Automaton.Edge.WellFormed]
  silent := by decide

/-- Inside of `abc` the second attempt begins with `b`. It is not the first of its pass, so that its
start links are closed. -/
theorem Scanner.scan_takes_preferred_inside_match :
    let family := Family.nesting Automaton.aOrAbc (.plain Automaton.aOrOpeningB .nil) .nil
    let s := start family (.ofString "abc")
    ∃ p around, s.Begins [false, false] around p .empty ∧ p.buffer = ['b', 'c'] ∧
      ∃ frames v stages, Course family "abc".toList frames (v :: stages) ∧
        s.OnCourse [false, false] around p .empty frames v stages ∧ v.rest = ['b', 'c'] ∧
        v.attempts ≠ 0 ∧ v.Munches p .empty := by
  intro family s
  have passes : (s.afterCalls [false, false]).passes.map (fun p => (p.buffer, p.fresh)) =
      [(['b', 'c'], false), ([], false)] := by decide +kernel
  obtain ⟨p, around, here, inner, outer⟩ := List.map_eq_cons_iff.1 passes
  obtain ⟨buffer, fresh⟩ := Prod.mk.inj inner
  have owned : around ≠ [] := by
    rintro rfl
    cases outer
  have begins := Begins.call here
  rw [sourceOf, if_neg (by simpa using owned)] at begins
  obtain ⟨⟨frames, v, stages, course, onCourse, munches, -⟩, -⟩ := scan_takes_preferred begins
  have rest : v.rest = ['b', 'c'] := by
    have ahead : p.ahead .empty = v.rest := congrArg Pass.buffer onCourse.here
    rw [← ahead, Pass.ahead, buffer]
    rfl
  have later : v.attempts ≠ 0 := by
    have mark : p.fresh = (v.attempts == 0) := congrArg Pass.fresh onCourse.here
    rw [fresh] at mark
    simpa using mark.symm
  exact ⟨p, around, begins, buffer, frames, v, stages, course, onCourse, rest, later, munches⟩

end Munch
