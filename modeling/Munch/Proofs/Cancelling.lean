import Munch.Proofs.Delivery

/-!
# Cancelling a channel

There are two ways to cancel. A consumer that hangs up finds nothing any more, and the producer,
which learns of it when it offers its next item, begins at most one more call. A request to stop
alone, made by anyone, leaves the consumer listening. Then an item on offer is still delivered, as
it passed the check before the request; behind it comes at most the sentinel or a read failure,
which pass every check, and then nothing.

Each stage of the way out is a property of the channel that no step leaves except to the next stage:
an item on offer, then at most the last item, then nothing.

## Main definitions

* `Channel.Silent`, `Channel.Fades`: what follows a hang-up, and a request to stop.
* `Channel.Quiet`, `Channel.Closing`: the last stages of a channel with a request to stop.
* `Channel.cancels_in_every_run`: cancelling at any place of any run.
-/

namespace Munch.Channel

/-- The producer begins a call of the scanner. -/
def Event.begins : Event → Bool
  | .begin => true
  | _ => false

/-- What follows once nobody listens: pulls find nothing, those with a limit of time included, and
return without the producer, which begins one more call at most. -/
structure Silent (ys : List Event) (d : Channel) : Prop where
  nothing : ∀ a ∈ received ys, a = .ok none
  untimed : ∀ limit, .timeout limit ∉ ys
  at_once : ∀ limit, d.pullWithin? limit = some (.ok none, d)
  begins : ys.countP Event.begins ≤ 1

/-- At most a last item is received, and then nothing. -/
def Ends (answers : List (Except LexError (Option Frame))) : Prop :=
  ∃ last silent, answers = last ++ List.replicate silent (.ok none) ∧ last.length ≤ 1 ∧
    ∀ a ∈ last, Final a

/-- What is received after a request to stop at `c`: the item that was on offer then, if it is not
the last one, and behind it at most a last item, and then nothing. -/
def Fades (c : Channel) (answers : List (Except LexError (Option Frame))) : Prop :=
  ∃ passed ending, answers = passed ++ ending ∧ Ends ending ∧
    (passed = [] ∨ ∃ item s, c.producer = .offering item s ∧ isLast item = false ∧
      passed = [answer item])

/-- A channel can be cancelled in every state that a run leads to: by a hang-up, whether the request
to stop comes with it or later, and by the request alone. What is received in all are the first of
the answers that come without a request. -/
def Cancels (start : Channel) (answers : List (Except LexError (Option Frame))) : Prop :=
  ∀ (xs ys : List Event) (c d : Channel), Steps start xs c →
    (Steps c (.disconnect :: ys) d → Silent ys d) ∧ (Steps c.hangUp ys d → Silent ys d) ∧
    (Steps c (.raise :: ys) d → Fades c (received ys) ∧ ∃ n silent,
      received xs ++ received ys = answers.take n ++ List.replicate silent (.ok none))

variable {c d : Channel} {x : Event} {ys : List Event} {s : Scanner}
  {answers : List (Except LexError (Option Frame))}

/-! ## Hanging up -/

/-- The calls that a producer still begins when nobody listens. -/
def callsLeft (c : Channel) : Nat :=
  match c.producer with
  | .ready _ => 1
  | _ => 0

/-- A step while nobody listens. -/
theorem deaf_step (deaf : c.connected = false) (step : Step c x d) :
    d.connected = false ∧ (∀ a, x = .receive a → a = .ok none) ∧ (∀ limit, x ≠ .timeout limit) ∧
      d.callsLeft + (if x.begins then 1 else 0) ≤ c.callsLeft := by
  cases step with
  | begin ready =>
    exact ⟨deaf, by simp, by simp, by simp [callsLeft, ready, Event.begins]⟩
  | @complete s scanning =>
    refine ⟨deaf, by simp, by simp, ?_⟩
    rcases s.next c.raised with ⟨_ | item, t⟩ <;> simp [callsLeft, completed, Event.begins]
  | crash | quit => exact ⟨deaf, by simp, by simp, by simp [callsLeft, Event.begins]⟩
  | unheard => exact ⟨deaf, by simp, by simp, Nat.le_refl _⟩
  | raise => exact ⟨deaf, by simp, by simp, Nat.le_refl _⟩
  | take _ connected | ended _ connected | lost _ connected | timeout _ connected
  | disconnect connected => cases deaf.symm.trans connected

theorem pullWithin?_of_deaf (deaf : c.connected = false) (limit : Option Duration) :
    c.pullWithin? limit = some (.ok none, c) := by
  simp [pullWithin?, deaf]

theorem callsLeft_le_one (c : Channel) : c.callsLeft ≤ 1 := by
  rw [callsLeft]
  split <;> decide

/-- A run while nobody listens. -/
theorem silent_of_deaf (deaf : c.connected = false) (steps : Steps c ys d) : Silent ys d := by
  suffices run : (∀ a ∈ received ys, a = .ok none) ∧ (∀ limit, .timeout limit ∉ ys) ∧
      d.connected = false ∧ ys.countP Event.begins ≤ c.callsLeft from
    ⟨run.1, run.2.1, pullWithin?_of_deaf run.2.2.1, Nat.le_trans run.2.2.2 c.callsLeft_le_one⟩
  induction steps with
  | refl => exact ⟨nofun, nofun, deaf, Nat.zero_le _⟩
  | @step c d e x xs step _ ih =>
    obtain ⟨still, nothing, untimed, fewer⟩ := deaf_step deaf step
    obtain ⟨later, timeouts, last, begins⟩ := ih still
    refine ⟨?_, ?_, last, ?_⟩
    · by_cases pull : ∃ a, x = .receive a
      · obtain ⟨a, rfl⟩ := pull
        exact List.forall_mem_cons.2 ⟨nothing a rfl, later⟩
      · rwa [received_of_silent fun a same => pull ⟨a, same⟩]
    · intro limit there
      rcases List.mem_cons.1 there with here | there
      · exact untimed limit here.symm
      · exact timeouts limit there
    · rw [List.countP_cons]
      omega

theorem connected_hangUp (c : Channel) : c.hangUp.connected = false := by
  rw [hangUp]
  split
  · rfl
  · next deaf => exact Bool.eq_false_iff.2 deaf

/-! ## A request to stop -/

/-- A pull that finds nothing, or no pull. -/
def Event.Empty (x : Event) : Prop := ∀ a, x = .receive a → a = .ok none

theorem empty_nothing : Event.Empty (.receive (.ok none)) := by
  intro a same
  cases same
  rfl

theorem empty_of_silent (silent : ∀ a, x ≠ .receive a) : x.Empty :=
  fun a same => absurd same (silent a)

/-- The steps of a channel behind a request to stop: the consumer is lost, or the producer goes on
as the request has it, or an item on offer is taken. -/
theorem Step.raised_cases (raised : c.raised = true) (step : Step c x d) :
    (x.Empty ∧ d.connected = false) ∨
    ((∀ a, x ≠ .receive a) ∧ d.raised = true ∧ (d.producer = c.producer ∨ d.producer = .gone ∨
      (∃ s, c.producer = .ready s ∧ d.producer = .scanning s) ∨
      ∃ s, c.producer = .scanning s ∧ d.producer = completed (s.next true))) ∨
    ∃ item s, c.producer = .offering item s ∧ x = .receive (answer item) ∧ d.raised = true ∧
      d.producer = .ready s := by
  cases step with
  | begin ready => exact .inr (.inl ⟨nofun, raised, .inr (.inr (.inl ⟨_, ready, rfl⟩))⟩)
  | complete scanning =>
    exact .inr (.inl ⟨nofun, raised, .inr (.inr (.inr ⟨_, scanning, by rw [raised]⟩))⟩)
  | crash | quit => exact .inr (.inl ⟨nofun, raised, .inr (.inl rfl)⟩)
  | take offered => exact .inr (.inr ⟨_, _, offered, rfl, raised, rfl⟩)
  | ended => exact .inl ⟨empty_nothing, rfl⟩
  | unheard deaf => exact .inl ⟨empty_nothing, deaf⟩
  | disconnect => exact .inl ⟨nofun, rfl⟩
  | lost _ _ _ unraised => cases raised.symm.trans unraised
  | timeout => exact .inr (.inl ⟨nofun, raised, .inl rfl⟩)
  | raise => exact .inr (.inl ⟨nofun, rfl, .inl rfl⟩)

/-- Pulls find nothing: nobody listens, or a stop is requested and the producer is at its end. -/
inductive Quiet (c : Channel) : Prop where
  | unheard : c.connected = false → Quiet c
  | gone : c.raised = true → c.producer = .gone → Quiet c
  | finished {s : Scanner} : c.raised = true → c.producer = .ready s ∨ c.producer = .scanning s →
    s.passes = [] → Quiet c

/-- Pulls find at most the last item: of what the scanner hands out, nothing else comes through the
request to stop. -/
inductive Closing (c : Channel) : Prop where
  | quiet : Quiet c → Closing c
  | working {s : Scanner} : c.raised = true → c.producer = .ready s ∨ c.producer = .scanning s →
    Closing c
  | offering {item : Except ScanError Frame} {s : Scanner} : c.raised = true →
    c.producer = .offering item s → isLast item = true → s.passes = [] → Closing c

/-- The item passed the check before the request to stop, and is on offer. -/
def Passing (item : Except ScanError Frame) (c : Channel) : Prop :=
  c.raised = true ∧ ∃ s, c.producer = .offering item s

theorem Quiet.step (h : Quiet c) (step : Step c x d) : Quiet d ∧ x.Empty := by
  cases h with
  | unheard deaf =>
    obtain ⟨still, nothing, -⟩ := deaf_step deaf step
    exact ⟨.unheard still, nothing⟩
  | gone raised gone =>
    obtain ⟨empty, deaf⟩ | ⟨silent, still, same | last | ⟨s, other, -⟩ | ⟨s, other, -⟩⟩ |
      ⟨_, _, other, -⟩ := step.raised_cases raised
    · exact ⟨.unheard deaf, empty⟩
    · exact ⟨.gone still (same.trans gone), empty_of_silent silent⟩
    · exact ⟨.gone still last, empty_of_silent silent⟩
    all_goals cases gone.symm.trans other
  | @finished t raised at_work finished =>
    obtain ⟨empty, deaf⟩ | ⟨silent, still, same | last | ⟨s, ready, next⟩ | ⟨s, scanning, next⟩⟩ |
      ⟨_, _, other, -⟩ := step.raised_cases raised
    · exact ⟨.unheard deaf, empty⟩
    · exact ⟨.finished still (by rwa [same]) finished, empty_of_silent silent⟩
    · exact ⟨.gone still last, empty_of_silent silent⟩
    · obtain rfl : s = t := by simpa [ready] using at_work
      exact ⟨.finished still (.inr next) finished, empty_of_silent silent⟩
    · obtain rfl : s = t := by simpa [scanning] using at_work
      rw [Scanner.next_of_finished finished] at next
      exact ⟨.gone still next, empty_of_silent silent⟩
    · simp [other] at at_work

/-- Either the last item may still come, or a pull has taken it or found nothing. -/
theorem Closing.step (h : Closing c) (step : Step c x d) :
    (Closing d ∧ ∀ a, x ≠ .receive a) ∨
      (Quiet d ∧ ∀ a, x = .receive a → a = .ok none ∨ Final a) := by
  cases h with
  | quiet quiet =>
    obtain ⟨still, empty⟩ := quiet.step step
    exact .inr ⟨still, fun a same => .inl (empty a same)⟩
  | @working t raised at_work =>
    obtain ⟨empty, deaf⟩ | ⟨silent, still, same | last | ⟨s, ready, next⟩ | ⟨s, scanning, next⟩⟩ |
      ⟨_, _, other, -⟩ := step.raised_cases raised
    · exact .inr ⟨.unheard deaf, fun a same => .inl (empty a same)⟩
    · exact .inl ⟨.working still (by rwa [same]), silent⟩
    · exact .inl ⟨.quiet (.gone still last), silent⟩
    · exact .inl ⟨.working still (.inr next), silent⟩
    · left
      -- What comes through the request to stop closes every pass.
      have closed := Scanner.passes_next_true s
      rcases called : s.next true with ⟨_ | item, t⟩ <;> rw [called] at next closed
      · exact ⟨.quiet (.gone still next), silent⟩
      · have closes := (Scanner.next_true_eq_some_iff.1 (congrArg Prod.fst called)).2
        exact ⟨.offering still next (Scanner.isLast_of_closes closes) closed, silent⟩
    · simp [other] at at_work
  | @offering item t raised offered last finished =>
    obtain ⟨empty, deaf⟩ | ⟨silent, still, same | gone | ⟨s, other, -⟩ | ⟨s, other, -⟩⟩ |
      ⟨_, s, other, received, still, ready⟩ := step.raised_cases raised
    · exact .inr ⟨.unheard deaf, fun a same => .inl (empty a same)⟩
    · exact .inl ⟨.offering still (same.trans offered) last finished, silent⟩
    · exact .inl ⟨.quiet (.gone still gone), silent⟩
    all_goals cases offered.symm.trans other
    refine .inr ⟨.finished still (.inl ready) finished, fun a same => .inr ⟨item, last, ?_⟩⟩
    exact Event.receive.inj (same.symm.trans received)

/-- The item may still come, or it does now, or it never will. -/
theorem Passing.step {item : Except ScanError Frame} (h : Passing item c) (step : Step c x d) :
    (Passing item d ∧ ∀ a, x ≠ .receive a) ∨ (Quiet d ∧ x.Empty) ∨
      (Closing d ∧ x = .receive (answer item)) := by
  obtain ⟨raised, t, offered⟩ := h
  obtain ⟨empty, deaf⟩ | ⟨silent, still, same | gone | ⟨s, other, -⟩ | ⟨s, other, -⟩⟩ |
    ⟨_, s, other, received, still, ready⟩ := step.raised_cases raised
  · exact .inr (.inl ⟨.unheard deaf, empty⟩)
  · exact .inl ⟨⟨still, t, same.trans offered⟩, silent⟩
  · exact .inr (.inl ⟨.gone still gone, empty_of_silent silent⟩)
  all_goals cases offered.symm.trans other
  exact .inr (.inr ⟨.working still (.inl ready), received⟩)

theorem received_of_empty (empty : x.Empty) {silent : Nat}
    (later : received ys = List.replicate silent (.ok none)) :
    ∃ silent, received (x :: ys) = List.replicate silent (.ok none) := by
  by_cases pull : ∃ a, x = .receive a
  · obtain ⟨a, rfl⟩ := pull
    exact ⟨silent + 1, by rw [received_receive, empty a rfl, later, List.replicate_succ]⟩
  · exact ⟨silent, (received_of_silent (fun a same => pull ⟨a, same⟩) ys).trans later⟩

theorem Quiet.run (h : Quiet c) (steps : Steps c ys d) :
    ∃ silent, received ys = List.replicate silent (.ok none) := by
  induction steps with
  | refl => exact ⟨0, rfl⟩
  | step step _ ih =>
    obtain ⟨quiet, empty⟩ := h.step step
    obtain ⟨silent, later⟩ := ih quiet
    exact received_of_empty empty later

theorem ends_of_silent (silent : Nat) (h : answers = List.replicate silent (.ok none)) :
    Ends answers :=
  ⟨[], silent, h, Nat.zero_le _, nofun⟩

theorem ends_nil : Ends [] := ends_of_silent 0 rfl

theorem Closing.run (h : Closing c) (steps : Steps c ys d) : Ends (received ys) := by
  induction steps with
  | refl => exact ends_nil
  | @step c d e x xs step steps ih =>
    obtain ⟨closing, silent⟩ | ⟨quiet, found⟩ := h.step step
    · rw [received_of_silent silent]
      exact ih closing
    · obtain ⟨silent, later⟩ := quiet.run steps
      by_cases pull : ∃ a, x = .receive a
      · obtain ⟨a, rfl⟩ := pull
        rw [received_receive, later]
        obtain rfl | final := found a rfl
        · exact ends_of_silent (silent + 1) List.replicate_succ.symm
        · exact ⟨[a], silent, rfl, Nat.le_refl _, List.forall_mem_singleton.2 final⟩
      · rw [received_of_silent fun a same => pull ⟨a, same⟩]
        exact ends_of_silent silent later

theorem Passing.run {item : Except ScanError Frame} (h : Passing item c) (steps : Steps c ys d) :
    ∃ passed ending, received ys = passed ++ ending ∧ Ends ending ∧
      (passed = [] ∨ passed = [answer item]) := by
  induction steps with
  | refl => exact ⟨[], [], rfl, ends_nil, .inl rfl⟩
  | @step c d e x xs step steps ih =>
    obtain ⟨passing, silent⟩ | ⟨quiet, empty⟩ | ⟨closing, rfl⟩ := h.step step
    · rw [received_of_silent silent]
      exact ih passing
    · obtain ⟨silent, later⟩ := quiet.run steps
      obtain ⟨silent, nothing⟩ := received_of_empty empty later
      exact ⟨[], _, rfl, ends_of_silent silent nothing, .inl rfl⟩
    · exact ⟨[answer item], _, received_receive _ xs, closing.run steps, .inr rfl⟩

/-! ## Cancelling in any run -/

theorem Outlook.after {xs : List Event} (h : Outlook c answers) (steps : Steps c xs d) :
    ∃ rest, Outlook d rest := by
  induction steps generalizing answers with
  | refl => exact ⟨answers, h⟩
  | step step _ ih =>
    obtain ⟨rest, outlook, -⟩ := h.step step
    exact ih outlook

/-- Behind a last item on offer no pass is open. -/
theorem Outlook.closed_of_last {item : Except ScanError Frame} (h : Outlook c answers)
    (connected : c.connected = true) (offered : c.producer = .offering item s)
    (last : isLast item = true) : s.passes = [] := by
  cases h with
  | offering _ at_work _ closed =>
    rw [offered] at at_work
    cases at_work
    exact closed.1 last
  | unheard deaf => cases deaf.symm.trans connected
  | working _ at_work =>
    rw [offered] at at_work
    simp at at_work
  | ended _ at_work | lost _ at_work =>
    rw [offered] at at_work
    cases at_work

theorem Outlook.fades (h : Outlook c answers) (steps : Steps c.raise ys d) :
    Fades c (received ys) := by
  have ending (closing : Closing c.raise) : Fades c (received ys) :=
    ⟨[], _, rfl, closing.run steps, .inl rfl⟩
  cases connected : c.connected with
  | false => exact ending (.quiet (.unheard connected))
  | true =>
    cases at_work : c.producer with
    | ready s => exact ending (.working rfl (.inl at_work))
    | scanning s => exact ending (.working rfl (.inr at_work))
    | gone => exact ending (.quiet (.gone rfl at_work))
    | offering item s =>
      cases last : isLast item with
      | true => exact ending (.offering rfl at_work last (h.closed_of_last connected at_work last))
      | false =>
        have passing : Passing item c.raise := ⟨rfl, s, at_work⟩
        obtain ⟨passed, ending, split, ends, one⟩ := passing.run steps
        exact ⟨passed, ending, split, ends, one.imp_right fun one => ⟨item, s, at_work, last, one⟩⟩

theorem Outlook.cancels {start : Channel} (h : Outlook start answers) : Cancels start answers := by
  intro xs ys c d before
  refine ⟨fun steps => ?_, silent_of_deaf (connected_hangUp c), fun steps => ?_⟩
  · cases steps with
    | step first later =>
      cases first
      exact silent_of_deaf rfl later
  · obtain ⟨rest, outlook⟩ := h.after before
    constructor
    · cases steps with
      | step first later =>
        cases first
        exact outlook.fades later
    · have all := h.steps (before.trans steps)
      rwa [received_append] at all

/-- A producer that may have to wait makes no other steps than one that never has to. -/
theorem Step.settled (step : Step c x d) (calm : c.continuation ≠ .crashing) :
    Step { c with continuation := .settled } x { d with continuation := .settled } := by
  cases step with
  | begin ready => exact .begin (c := { c with continuation := .settled }) ready
  | complete scanning =>
    exact .complete (c := { c with continuation := .settled }) scanning (.inl rfl)
  | crash _ crashing => exact absurd crashing calm
  | quit offered deaf => exact .quit (c := { c with continuation := .settled }) offered deaf
  | take offered connected =>
    exact .take (c := { c with continuation := .settled }) offered connected
  | ended gone connected told =>
    exact .ended (c := { c with continuation := .settled }) gone connected told
  | lost gone connected unfinished unraised =>
    exact .lost (c := { c with continuation := .settled }) gone connected unfinished unraised
  | unheard deaf => exact .unheard deaf
  | timeout limit connected => exact .timeout limit connected
  | raise => exact .raise _
  | disconnect connected => exact .disconnect (c := { c with continuation := .settled }) connected

theorem Steps.settled {xs : List Event} (steps : Steps c xs d) (calm : c.continuation ≠ .crashing) :
    Steps { c with continuation := .settled } xs { d with continuation := .settled } := by
  induction steps with
  | refl => exact .refl _
  | step step _ ih => exact .step (step.settled calm) (ih (step.continuation_eq ▸ calm))

theorem Cancels.of_settled {start : Channel}
    (h : Cancels { start with continuation := .settled } answers)
    (calm : start.continuation ≠ .crashing) : Cancels start answers := by
  intro xs ys c d before
  refine ⟨fun steps => ?_, silent_of_deaf (connected_hangUp c), fun steps => ?_⟩
  · cases steps with
    | step first later =>
      cases first
      exact silent_of_deaf rfl later
  · exact (h _ ys _ _ (before.settled calm)).2.2 (steps.settled (before.continuation_eq ▸ calm))

/-- A channel can be cancelled in every state, whatever turns its two sides take before and after,
whether the producer never has to wait for its input, or may have to, or breaks down over it. -/
theorem cancels_in_every_run (family : Family Automaton) (input : Input) :
    let scanner := Scanner.start family input
    (∀ k ≠ .crashing,
      Cancels { spawn scanner with continuation := k } (scanner.results.map answer)) ∧
    ∃ items, Breaks scanner items ∧ Cancels { spawn scanner with continuation := .crashing }
      (items.map answer ++ [.error .disconnected]) := by
  intro scanner
  constructor
  · intro k calm
    have settled := outlook_spawn family input .settled (coming_results scanner)
    exact @Cancels.of_settled _ { spawn scanner with continuation := k } settled.cancels calm
  · obtain ⟨items, breaks⟩ := Scanner.exists_breaks (Scanner.reading_start family input)
    exact ⟨items, breaks, (outlook_spawn family input .crashing breaks.coming).cancels⟩

/-- A stop is requested while a match is on offer, which is delivered, and the sentinel behind it.
When the consumer hangs up at the same place instead, neither is. A producer that breaks down after
a request to stop is not reported. -/
theorem cancels_in_every_run_on_offer :
    let scanner := Scanner.start (.plain .aOrAbc .nil) (.ofString "a")
    let first : Frame := ⟨some 0, "a", {}, 0⟩
    let ys : List Event := [.receive (.ok (some first)), .begin, .complete,
      .receive (.ok (some ⟨none, "", ⟨0, 1⟩, 0⟩))]
    let broken := Scanner.start (.plain .aOrAbc .nil) (.ofString "")
    let zs : List Event := [.crash, .receive (.ok none)]
    (∃ c d e, Steps (spawn scanner) [.begin, .complete] c ∧ c.raised = false ∧
      Steps c (.raise :: ys) d ∧ Fades c (received ys) ∧
      Steps c.hangUp [.quit, .receive (.ok none)] e ∧ Silent [.quit, .receive (.ok none)] e) ∧
    ∃ c d, Steps { spawn broken with continuation := .crashing } [.begin] c ∧
      Steps c (.raise :: zs) d ∧ Fades c (received zs) := by
  intro scanner first ys broken zs
  have item : (scanner.next false).1 = some (.ok first) := by decide +kernel
  have called : scanner.next false = (some (.ok first), (scanner.next false).2) :=
    Prod.ext item rfl
  have ending : ((scanner.next false).2.next true).1 = some (.ok ⟨none, "", ⟨0, 1⟩, 0⟩) := by
    decide +kernel
  have down : overran broken (broken.next true).2 = true := by decide +kernel
  have last : (scanner.next false).2.next true =
      (some (.ok ⟨none, "", ⟨0, 1⟩, 0⟩), ((scanner.next false).2.next true).2) :=
    Prod.ext ending rfl
  let offered : Channel := { spawn scanner with producer := completed (scanner.next false) }
  have before : Steps (spawn scanner) [.begin, .complete] offered :=
    .step (.begin rfl) <| .step (.complete rfl (.inl rfl)) <| .refl _
  have raised : Steps offered (.raise :: ys) _ :=
    .step (.raise _) <| .step (@Step.take _ (.ok first) _ (congrArg completed called) rfl) <|
      .step (.begin rfl) <| .step (.complete rfl (.inl rfl)) <|
      .step (@Step.take _ (.ok ⟨none, "", ⟨0, 1⟩, 0⟩) _ (congrArg completed last) rfl) <| .refl _
  have hungUp : Steps offered.hangUp [.quit, .receive (.ok none)] _ :=
    .step (@Step.quit _ (.ok first) _ (congrArg completed called) rfl) <|
      .step (.unheard rfl) <| .refl _
  let reading : Channel := { producer := .scanning broken, continuation := .crashing }
  have begun : Steps { spawn broken with continuation := .crashing } [.begin] reading :=
    .step (.begin rfl) <| .refl _
  have lost : Steps reading (.raise :: zs) _ :=
    .step (.raise _) <| .step (.crash rfl rfl down) <| .step (.ended rfl rfl (.inr rfl)) <| .refl _
  refine ⟨⟨_, _, _, before, rfl, raised, ?_, hungUp, ?_⟩, _, _, begun, lost, ?_⟩
  · have cancels := (cancels_in_every_run (.plain .aOrAbc .nil) (.ofString "a")).1 .settled nofun
    exact ((cancels _ ys _ _ before).2.2 raised).1
  · have cancels := (cancels_in_every_run (.plain .aOrAbc .nil) (.ofString "a")).1 .settled nofun
    exact (cancels _ _ _ _ before).2.1 hungUp
  · obtain ⟨items, -, cancels⟩ := (cancels_in_every_run (.plain .aOrAbc .nil) (.ofString "")).2
    exact ((cancels _ zs _ _ begun).2.2 lost).1

end Munch.Channel
