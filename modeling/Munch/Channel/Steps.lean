import Munch.Channel.Basic

/-!
# Steps of producer and consumer

The two sides of a channel take turns in any order. The producer begins a call of the scanner
and completes it; the request to stop counts as it stands at the completion. The consumer
takes what is on offer, or gives up waiting. Anyone may request a stop at any time.

## Main definitions

* `Channel.Event`: what one step does.
* `Channel.Step`, `Channel.Steps`: one step, and any number of them in any order.
* `Channel.Idle`: the producer is not at work, so that a pull returns.
-/

namespace Munch.Channel

/-- What happens in a step. -/
inductive Event where
  /-- The producer begins a call of the scanner. -/
  | begin
  /-- The call is completed, and its item is on offer. -/
  | complete
  /-- The input brings the producer down. -/
  | crash
  /-- Nobody listens to the producer any more. -/
  | quit
  /-- A pull returns with an answer. -/
  | receive (answer : Except LexError (Option Frame))
  /-- A pull under a limit of time returns without one. -/
  | timeout (limit : Duration)
  /-- A stop is requested. -/
  | raise
  /-- The consumer stops listening. -/
  | disconnect

/-- One step of either side. -/
inductive Step : Channel → Event → Channel → Prop where
  | begin {c : Channel} {s : Scanner} : c.producer = .ready s →
    Step c .begin { c with producer := .scanning s }
  | complete {c : Channel} {s : Scanner} : c.producer = .scanning s →
    c.continuation = .settled ∨ overran s (s.next c.raised).2 = false →
    Step c .complete { c with producer := completed (s.next c.raised) }
  | crash {c : Channel} {s : Scanner} : c.producer = .scanning s → c.continuation = .crashing →
    overran s (s.next c.raised).2 = true → Step c .crash { c with producer := .gone }
  | quit {c : Channel} {item : Except ScanError Frame} {s : Scanner} :
    c.producer = .offering item s → c.connected = false →
    Step c .quit { c with producer := .gone }
  | take {c : Channel} {item : Except ScanError Frame} {s : Scanner} :
    c.producer = .offering item s → c.connected = true →
    Step c (.receive (answer item))
      { c with producer := .ready s, finished := c.finished || isLast item }
  | ended {c : Channel} : c.producer = .gone → c.connected = true →
    c.finished = true ∨ c.raised = true →
    Step c (.receive (.ok none)) { c with connected := false }
  | lost {c : Channel} : c.producer = .gone → c.connected = true → c.finished = false →
    c.raised = false → Step c (.receive (.error .disconnected)) { c with connected := false }
  | unheard {c : Channel} : c.connected = false → Step c (.receive (.ok none)) c
  | timeout {c : Channel} (limit : Duration) : c.connected = true → Step c (.timeout limit) c
  | raise (c : Channel) : Step c .raise c.raise
  | disconnect {c : Channel} : c.connected = true →
    Step c .disconnect { c with connected := false }

/-- Any number of steps, with what happened in them. -/
inductive Steps : Channel → List Event → Channel → Prop where
  | refl (c : Channel) : Steps c [] c
  | step {c d e : Channel} {x : Event} {xs : List Event} :
    Step c x d → Steps d xs e → Steps c (x :: xs) e

/-- No step changes how the input goes on. -/
theorem Step.continuation_eq {c d : Channel} {x : Event} (h : Step c x d) :
    d.continuation = c.continuation := by
  cases h <;> rfl

theorem Steps.continuation_eq {c d : Channel} {xs : List Event} (h : Steps c xs d) :
    d.continuation = c.continuation := by
  induction h with
  | refl => rfl
  | step first _ ih => rw [ih, first.continuation_eq]

theorem Steps.trans {c d e : Channel} {xs ys : List Event} (h : Steps c xs d)
    (h' : Steps d ys e) : Steps c (xs ++ ys) e := by
  induction h with
  | refl => exact h'
  | step first _ ih => exact .step first (ih h')

/-- The event is one of the producer's own. -/
def Event.ofProducer : Event → Bool
  | .begin | .complete | .crash | .quit => true
  | _ => false

/-- The producer can make exactly the step that `work` makes. -/
theorem work_eq_some_iff {c d : Channel} :
    c.work = some d ↔ ∃ x, x.ofProducer ∧ Step c x d := by
  constructor
  · intro h
    rw [work] at h
    split at h
    · next ready => cases h; exact ⟨.begin, rfl, .begin ready⟩
    · next s scanning =>
      simp only at h
      split at h
      · cases h
      · next crashing overran => cases h; exact ⟨.crash, rfl, .crash scanning crashing overran⟩
      · next not_waiting not_crashing =>
        cases h
        refine ⟨.complete, rfl, .complete scanning ?_⟩
        cases hc : c.continuation <;> cases ho : overran s (s.next c.raised).2 <;> simp_all
    · next offering =>
      split at h
      · cases h
      · next unheard =>
        cases h
        exact ⟨.quit, rfl, .quit offering (Bool.eq_false_iff.2 unheard)⟩
    · cases h
  · rintro ⟨x, own, h⟩
    cases h with
    | begin ready => simp [work, ready]
    | @complete s scanning free =>
      cases hc : c.continuation <;> cases ho : overran s (s.next c.raised).2 <;>
        simp_all [work]
    | crash scanning crashing overran => simp [work, scanning, crashing, overran]
    | quit offering unheard => simp [work, offering, unheard]
    | take | ended | lost | unheard | timeout | raise | disconnect => cases own

/-- A pull finds exactly the answers that a step can bring. -/
theorem receive?_eq_some_iff {c d : Channel} {a : Except LexError (Option Frame)} :
    c.receive? = some (a, d) ↔ Step c (.receive a) d := by
  constructor
  · intro h
    rw [receive?] at h
    split at h
    · next connected =>
      split at h
      · next offering => cases h; exact .take offering connected
      · next gone =>
        split at h <;> cases h
        · exact .ended gone connected (by simp_all)
        · next open_end =>
          simp only [Bool.or_eq_true, not_or, Bool.not_eq_true] at open_end
          exact .lost gone connected open_end.1 open_end.2
      · cases h
    · next unheard => cases h; exact .unheard (Bool.eq_false_iff.2 unheard)
  · intro h
    cases h with
    | take offering connected => simp [receive?, offering, connected]
    | ended gone connected last => simp [receive?, gone, connected, last]
    | lost gone connected unfinished unraised =>
      simp [receive?, gone, connected, unfinished, unraised]
    | unheard unheard => simp [receive?, unheard]

/-- The producer is not at work. -/
def Idle (c : Channel) : Prop := c.producer = .gone ∨ ∃ item s, c.producer = .offering item s

theorem Idle.receives {c : Channel} (h : c.Idle) : ∃ a d, Step c (.receive a) d := by
  cases connected : c.connected with
  | false => exact ⟨_, _, .unheard connected⟩
  | true =>
    rcases h with gone | ⟨item, s, offered⟩
    · by_cases told : c.finished = true ∨ c.raised = true
      · exact ⟨_, _, .ended gone connected told⟩
      · simp only [not_or, Bool.not_eq_true] at told
        exact ⟨_, _, .lost gone connected told.1 told.2⟩
    · exact ⟨_, _, .take offered connected⟩

theorem idle_completed (c : Channel) (call : Option (Except ScanError Frame) × Scanner) :
    Idle { c with producer := completed call } := by
  rcases call with ⟨_ | item, s⟩
  · exact .inl rfl
  · exact .inr ⟨item, s, rfl⟩

end Munch.Channel
