import Munch.Source

/-!
# A scanner behind a channel

A channel hands frames from a producer, which runs a scanner beside the consumer, to the
consumer that pulls them. It holds no frames: the producer offers one and waits until it is
taken. Cancelling hangs up, which releases a waiting producer, and raises the request to stop.

The producer moves in steps of its own: it begins a call of the scanner, it completes the
call, it gives up when nobody listens. `Channel.work` is the one step that the producer can
make, if any. A pull here lets the producer go as far as it can and then takes what it
offers; whatever the producer does between pulls, the consumer finds the same answers, apart
from when exactly a request to stop comes to its notice.

## Main definitions

* `Channel.work`: a step of the producer.
* `Channel.receive?`: what the consumer finds.
* `Channel.pullWithin?`: a pull, with or without a limit of time.
-/

namespace Munch

/-- How the producer's input goes on behind the characters known of it. -/
inductive Continuation where
  /-- As the input itself says. -/
  | settled
  /-- More characters may come; a read waits for them. -/
  | waiting
  /-- A read brings the producer down. -/
  | crashing
deriving DecidableEq

/-- What a producer is about. -/
inductive Producer where
  /-- Between two calls of the scanner. -/
  | ready (scanner : Scanner)
  /-- In a call of the scanner, which was in this state before. -/
  | scanning (scanner : Scanner)
  /-- Waiting for its item to be taken. -/
  | offering (item : Except ScanError Frame) (scanner : Scanner)
  | gone

/-- A producer with what it shares with its consumer, and the consumer's own notes. -/
structure Channel where
  producer : Producer
  continuation : Continuation := .settled
  /-- The scanner is requested to stop. -/
  raised : Bool := false
  /-- The consumer listens. -/
  connected : Bool := true
  /-- The sentinel or a read failure was taken. -/
  finished : Bool := false
  /-- A limit on every pull that names none itself. -/
  limit : Option Duration := none

namespace Channel

/-- The channel of a scanner that is not running yet. -/
def spawn (scanner : Scanner) : Channel := { producer := .ready scanner }

/-- A call of the scanner read on behind the characters known before it. -/
def overran (before after : Scanner) : Bool :=
  decide (before.input.reads + before.input.rest.length < after.input.reads)

/-- The producer after a completed call of the scanner. -/
def completed : Option (Except ScanError Frame) × Scanner → Producer
  | (some item, scanner) => .offering item scanner
  | (none, _) => .gone

/-- The step that the producer can make; `none` if it has to wait or is gone. -/
def work (c : Channel) : Option Channel :=
  match c.producer with
  | .ready s => some { c with producer := .scanning s }
  | .scanning s =>
    let call := s.next c.raised
    match c.continuation, overran s call.2 with
    | .waiting, true => none
    | .crashing, true => some { c with producer := .gone }
    | _, _ => some { c with producer := completed call }
  | .offering _ _ => if c.connected then none else some { c with producer := .gone }
  | .gone => none

/-- No item follows this one. -/
def isLast : Except ScanError Frame → Bool
  | .ok f => f.isSentinel
  | .error _ => true

/-- An item as an answer to the consumer. -/
def answer : Except ScanError Frame → Except LexError (Option Frame)
  | .ok f => .ok (some f)
  | .error e => .error (.scan e)

/-- What the consumer finds at the channel; `none` if it has to wait. That the producer is
gone is an error unless its last item was taken or it was requested to stop. -/
def receive? (c : Channel) : Option (Except LexError (Option Frame) × Channel) :=
  if c.connected then
    match c.producer with
    | .offering item s =>
      some (answer item, { c with producer := .ready s, finished := c.finished || isLast item })
    | .gone =>
      some (if c.finished || c.raised then .ok none else .error .disconnected,
        { c with connected := false })
    | _ => none
  else some (.ok none, c)

/-- Let the producer go as far as it can: at most it begins a call and completes it. -/
def settle (c : Channel) : Channel :=
  match c.work with
  | none => c
  | some d => d.work.getD d

/-- Pull the next frame. If the producer has to wait, the limit of time runs out and the pull
fails without effect; without a limit, such a pull never returns. -/
def pullWithin? (c : Channel) (limit : Option Duration) :
    Option (Except LexError (Option Frame) × Channel) :=
  if c.connected then
    c.settle.receive? <|> limit.map fun d => (.error (.timeout d), c.settle)
  else some (.ok none, c)

/-- Request the scanner to stop. -/
def raise (c : Channel) : Channel := { c with raised := true }

/-- Stop listening, and request the scanner to stop. -/
def hangUp (c : Channel) : Channel :=
  if c.connected then { c with connected := false }.raise else c

/-- Change what is known of the input. -/
def updateInput (f : Input → Input) (c : Channel) : Channel :=
  let update (s : Scanner) : Scanner := { s with input := f s.input }
  { c with
    producer := match c.producer with
      | .ready s => .ready (update s)
      | .scanning s => .scanning (update s)
      | .offering item s => .offering item (update s)
      | .gone => .gone }

/-- More characters of the input come to be known. One that ended already takes none. -/
def feed (text : String) (c : Channel) : Channel :=
  if c.continuation = .waiting then
    c.updateInput fun i => { i with rest := i.rest ++ text.toList }
  else c

/-- An input that might have gone on ends behind the characters known of it. -/
def close (c : Channel) : Channel :=
  if c.continuation = .waiting then { c with continuation := .settled } else c

/-- A pull under the channel's own limit. One that never returns counts as the end here. -/
def pull (c : Channel) : Except LexError (Option Frame) × Channel :=
  (c.pullWithin? c.limit).getD (.ok none, c)

instance : FrameSource Channel where
  pull := pull
  stop := hangUp

/-- A bound on the frames that the producer can still give. -/
def supplyOf : Producer → Nat
  | .ready s | .scanning s | .offering (.error _) s => s.supply
  | .offering (.ok _) s => s.supply + 1
  | .gone => 0

variable {c d : Channel}

theorem supply_completed_le (s : Scanner) (stop : Bool) :
    supplyOf (completed (s.next stop)) ≤ s.supply := by
  cases h : s.next stop with
  | mk result t =>
    match result with
    | none => exact Nat.zero_le _
    | some (.ok f) => exact Scanner.supply_next_lt h
    | some (.error e) => simp [completed, supplyOf, Scanner.supply_next_error h]

theorem supply_work_le (h : c.work = some d) : supplyOf d.producer ≤ supplyOf c.producer := by
  rw [work] at h
  split at h
  · next at_work => cases h; simp [at_work, supplyOf]
  · next s at_work =>
    simp only at h
    split at h <;> cases h
    · exact Nat.zero_le _
    · simpa [at_work, supplyOf] using supply_completed_le s c.raised
  · split at h <;> cases h
    exact Nat.zero_le _
  · cases h

theorem supply_settle_le (c : Channel) : supplyOf c.settle.producer ≤ supplyOf c.producer := by
  rw [settle]
  split
  · exact Nat.le_refl _
  · next d worked =>
    refine Nat.le_trans ?_ (supply_work_le worked)
    cases again : d.work with
    | none => exact Nat.le_refl _
    | some e => exact supply_work_le again

theorem supply_receive_lt {f : Frame} (h : c.receive? = some (.ok (some f), d)) :
    supplyOf d.producer < supplyOf c.producer := by
  rw [receive?] at h
  split at h
  · split at h
    · next item s offered =>
      cases item <;> cases h
      simp [offered, supplyOf]
    · split at h <;> cases h
    · cases h
  · cases h

instance : FiniteSource Channel where
  supply c := supplyOf c.producer
  supply_pull_lt {c d f} h := by
    simp only [FrameSource.pull, pull, pullWithin?] at h
    split at h
    · cases received : c.settle.receive? with
      | some r =>
        simp [received] at h
        subst h
        exact Nat.lt_of_lt_of_le (supply_receive_lt received) (supply_settle_le c)
      | none => cases limit : c.limit <;> simp [received, limit] at h
    · cases h
  supply_stop_le c := by
    simp only [FrameSource.stop, hangUp]
    split <;> exact Nat.le_refl _

end Channel
end Munch
