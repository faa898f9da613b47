import Munch.Channel.Basic

/-!
# A channel under a schedule

Between two calls of its consumer a producer may make none, one or more of the steps that are
open to it; which, is beyond the control of either. A schedule fixes it: one number for each
call, of the steps made before the call. As the steps that a waiting pull needs are made in any
case, these numbers stand for every interleaving of the two sides.

## Main definitions

* `Channel.workFor`: some steps of the producer.
* `Scheduled`: a channel with a schedule, as a source of frames.
-/

namespace Munch

/-- Let the producer make a number of steps, or as many as it can. -/
def Channel.workFor (c : Channel) : Nat → Channel
  | 0 => c
  | n + 1 =>
    match c.work with
    | some d => d.workFor n
    | none => c

/-- A channel with the numbers of steps that its producer makes before the coming calls, none
where the schedule has run out. -/
structure Scheduled where
  channel : Channel
  schedule : List Nat := []

namespace Scheduled

/-- The channel when the next call is made. -/
def ready (s : Scheduled) : Channel := s.channel.workFor (s.schedule.headD 0)

instance : FrameSource Scheduled where
  pull s := (s.ready.pull).map id fun channel => ⟨channel, s.schedule.tail⟩
  stop s := ⟨s.ready.hangUp, s.schedule.tail⟩

end Scheduled

theorem Channel.supply_workFor_le (c : Channel) (n : Nat) :
    supplyOf (c.workFor n).producer ≤ supplyOf c.producer := by
  induction n generalizing c with
  | zero => exact Nat.le_refl _
  | succ n ih =>
    rw [workFor]
    split
    · next worked => exact Nat.le_trans (ih _) (supply_work_le worked)
    · exact Nat.le_refl _

instance : FiniteSource Scheduled where
  supply s := FiniteSource.supply s.channel
  supply_pull_lt {s t f} h := by
    simp only [FrameSource.pull, Prod.map, Prod.mk.injEq, id_eq] at h
    obtain ⟨answer, rfl⟩ := h
    have lt : FiniteSource.supply s.ready.pull.2 < FiniteSource.supply s.ready :=
      FiniteSource.supply_pull_lt (Prod.ext answer rfl)
    exact Nat.lt_of_lt_of_le lt (Channel.supply_workFor_le ..)
  supply_stop_le s :=
    Nat.le_trans (FiniteSource.supply_stop_le s.ready) (Channel.supply_workFor_le ..)

end Munch
