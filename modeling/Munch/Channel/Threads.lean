import Munch.Channel.Schedule
import Munch.Channel.Steps

/-!
# Sources behind a channel

To a lexer the consumer's end of a channel is a source like any other. Its pulls have no limit of
time, so that each waits until the producer has brought about an answer, and before that the
producer has made some number of steps. Which, is not for the lexer to know.

## Main definitions

* `Channel.Threads`: the pulls of a source are those of the consumer of a channel.
* `Channel.threads_scheduled`: a schedule of the producer's steps makes such a source.
-/

namespace Munch.Channel

/-- The pulls of a source are those of the consumer of a channel, whose producer makes its steps in
the meantime. What becomes of a request to stop is left open. -/
def Threads {σ : Type} [FrameSource σ] (channel : σ → Channel) : Prop :=
  ∀ s, (channel s).continuation = .settled → ∃ ys, (∀ y ∈ ys, y.ofProducer = true) ∧
    Steps (channel s) (ys ++ [.receive (FrameSource.pull s).1]) (channel (FrameSource.pull s).2)

section Schedule

variable {c d : Channel}

theorem steps_workFor (c : Channel) (n : Nat) :
    ∃ ys, (∀ y ∈ ys, y.ofProducer = true) ∧ Steps c ys (c.workFor n) := by
  induction n generalizing c with
  | zero => exact ⟨[], nofun, .refl c⟩
  | succ n ih =>
    rw [workFor]
    cases worked : c.work with
    | none => exact ⟨[], nofun, .refl c⟩
    | some d =>
      obtain ⟨y, own, step⟩ := work_eq_some_iff.1 worked
      obtain ⟨ys, all, steps⟩ := ih d
      exact ⟨y :: ys, List.forall_mem_cons.2 ⟨own, all⟩, .step step steps⟩

/-- Going as far as it can takes a producer two steps. -/
theorem settle_eq_workFor (c : Channel) : c.settle = c.workFor 2 := by
  rw [settle, workFor]
  cases c.work with
  | none => rfl
  | some d =>
    simp only [workFor]
    cases d.work <;> rfl

theorem work_of_scanning {s : Scanner} (settled : c.continuation = .settled) :
    work { c with producer := .scanning s } =
      some { c with producer := completed (s.next c.raised) } := by
  simp [work, settled]

theorem Idle.after_work (h : c.Idle) : (c.work.getD c).Idle := by
  rw [work]
  rcases h with gone | ⟨item, s, offered⟩
  · rw [gone]
    exact .inl gone
  · rw [offered]
    dsimp only
    split
    · exact .inr ⟨item, s, offered⟩
    · exact .inl rfl

/-- Over an input that neither waits nor breaks, a producer that has gone as far as it can is not at
work. -/
theorem idle_settle (settled : c.continuation = .settled) : c.settle.Idle := by
  rw [settle]
  cases at_work : c.producer with
  | ready s =>
    have begun : c.work = some { c with producer := .scanning s } := by rw [work, at_work]
    rw [begun]
    dsimp only
    rw [work_of_scanning settled]
    exact idle_completed c _
  | scanning s =>
    have same : c = { c with producer := .scanning s } := by rw [← at_work]
    have finished : c.work = some { c with producer := completed (s.next c.raised) } := by
      rw [same]
      exact work_of_scanning settled
    rw [finished]
    exact (idle_completed c _).after_work
  | offering item s =>
    have idle : c.Idle := .inr ⟨item, s, at_work⟩
    cases worked : c.work with
    | none => exact idle
    | some d =>
      have after := idle.after_work
      rw [worked] at after
      exact after.after_work
  | gone =>
    have nothing : c.work = none := by rw [work, at_work]
    rw [nothing]
    exact .inl at_work

/-- A pull lets the producer make steps and then finds an answer. -/
theorem steps_pull (settled : c.continuation = .settled) : ∃ ys, (∀ y ∈ ys, y.ofProducer = true) ∧
    Steps c (ys ++ [.receive c.pull.1]) c.pull.2 := by
  rw [pull, pullWithin?]
  cases connected : c.connected with
  | false => exact ⟨[], nofun, .step (.unheard connected) (.refl c)⟩
  | true =>
    obtain ⟨ys, own, steps⟩ := steps_workFor c 2
    rw [← settle_eq_workFor] at steps
    obtain ⟨a, d, receives⟩ := (idle_settle settled).receives
    have found := receive?_eq_some_iff.2 receives
    rw [if_pos rfl, found]
    exact ⟨ys, own, steps.trans (.step receives (.refl d))⟩

end Schedule

/-- A channel under a schedule of its producer's steps. -/
theorem threads_scheduled : Threads Scheduled.channel := by
  intro s settled
  obtain ⟨xs, before, ready⟩ := steps_workFor s.channel (s.schedule.headD 0)
  have still := ready.continuation_eq.trans settled
  obtain ⟨ys, own, steps⟩ := steps_pull still
  refine ⟨xs ++ ys, ?_, ?_⟩
  · intro y hy
    rcases List.mem_append.1 hy with first | later
    · exact before y first
    · exact own y later
  · rw [List.append_assoc]
    exact ready.trans steps

end Munch.Channel
