import Munch.Channel.Steps

/-!
# What a channel has still to deliver

Timeouts and the steps of the producer leave no trace at the consumer, who sees nothing but the
answers to its pulls. Which answers these will be depends on the state of the channel alone, however
its two sides are going to take turns, as long as no stop is requested.

## Main definitions

* `Channel.received`: the answers to the pulls of a run.
* `Channel.Breaks`: the items of a scanner whose input brings the producer down.
* `Channel.Coming`, `Channel.Outlook`: the answers still to come, from a producer and at a channel.
* `Channel.Delivers`: a run brings answers in order, and the next pull the next one.
-/

namespace Munch.Channel

/-- The answers to pulls in order, those apart that ran out of time. -/
def received (xs : List Event) : List (Except LexError (Option Frame)) :=
  xs.filterMap fun
    | .receive a => some a
    | _ => none

/-- The event is a request to stop. -/
def Event.stops : Event → Bool
  | .raise | .disconnect => true
  | _ => false

/-- The answer is a last item, the sentinel or a read failure. -/
def Final (a : Except LexError (Option Frame)) : Prop :=
  ∃ item, isLast item = true ∧ a = answer item

/-- A scanner hands out items up to a call that reads on behind the characters known. -/
inductive Breaks : Scanner → List (Except ScanError Frame) → Prop where
  | down {s : Scanner} : overran s (s.next false).2 = true → Breaks s []
  | item {s t : Scanner} {item : Except ScanError Frame} {items : List (Except ScanError Frame)} :
    s.next false = (some item, t) → overran s t = false → Breaks t items →
    Breaks s (item :: items)

/-- A call of the scanner is completed even if its input brings the producer down later. -/
def Completes (k : Continuation) (s : Scanner) (stop : Bool) : Prop :=
  k = .settled ∨ overran s (s.next stop).2 = false

/-- The answers that a producer brings about when it calls its scanner. -/
inductive Coming (k : Continuation) : Scanner → List (Except LexError (Option Frame)) → Prop where
  | item {s t : Scanner} {item : Except ScanError Frame}
    {rest : List (Except LexError (Option Frame))} : Completes k s false →
    s.next false = (some item, t) → Coming k t rest → Coming k s (answer item :: rest)
  | done {s t : Scanner} : Completes k s false → s.next false = (none, t) → Coming k s []
  | down {s : Scanner} : k = .crashing → overran s (s.next false).2 = true →
    Coming k s [.error .disconnected]

/-- The answers that pulls find at a channel before they find nothing for ever. -/
inductive Outlook (c : Channel) : List (Except LexError (Option Frame)) → Prop where
  | working {s : Scanner} {rest : List (Except LexError (Option Frame))} : c.connected = true →
    c.producer = .ready s ∨ c.producer = .scanning s → (c.finished = true ↔ s.passes = []) →
    Coming c.continuation s rest → Outlook c rest
  | offering {item : Except ScanError Frame} {s : Scanner}
    {rest : List (Except LexError (Option Frame))} : c.connected = true →
    c.producer = .offering item s → c.finished = false → (isLast item = true ↔ s.passes = []) →
    Coming c.continuation s rest → Outlook c (answer item :: rest)
  | ended : c.connected = true → c.producer = .gone → c.finished = true ∨ c.raised = true →
    Outlook c []
  | lost : c.connected = true → c.producer = .gone → c.finished = false → c.raised = false →
    Outlook c [.error .disconnected]
  | unheard : c.connected = false → Outlook c []

/-- A run has brought answers from the beginning of a list, and behind its end nothing. A pull made
now brings the next one, as soon as the producer has made its steps. -/
def Delivers (answers : List (Except LexError (Option Frame))) (xs : List Event) (d : Channel) :
    Prop :=
  (∃ silent, received xs <+: answers ++ List.replicate silent (.ok none)) ∧
    ∃ ys e, (∀ y ∈ ys, y.ofProducer = true) ∧
      Steps d (ys ++ [.receive ((answers.drop (received xs).length).headD (.ok none))]) e

section Received

variable {xs ys : List Event} {x : Event} {a : Except LexError (Option Frame)}

@[simp] theorem received_receive (a : Except LexError (Option Frame)) (xs : List Event) :
    received (.receive a :: xs) = a :: received xs := rfl

theorem received_of_silent (silent : ∀ a, x ≠ .receive a) (xs : List Event) :
    received (x :: xs) = received xs := by
  cases x with
  | receive a => exact absurd rfl (silent a)
  | _ => rfl

theorem received_append (xs ys : List Event) :
    received (xs ++ ys) = received xs ++ received ys :=
  List.filterMap_append

theorem received_of_producer (own : ∀ y ∈ ys, y.ofProducer = true) : received ys = [] := by
  rw [received, List.filterMap_eq_nil_iff]
  intro y hy
  have mine := own y hy
  cases y with
  | receive | timeout | raise | disconnect => cases mine
  | begin | complete | crash | quit => rfl

end Received

end Munch.Channel
