import Mathlib.Data.List.Basic
import Munch.Proofs.Breakdown
import Munch.Proofs.Listing
import Munch.Proofs.MaximalMunch
import Munch.Proofs.Stop

/-!
# Delivery through a channel

Producer and consumer share no more than an item on offer, and the news that the producer is gone.
Still the consumer can tell what that news means: it has taken the sentinel or a read failure, it
has requested a stop itself, or else the producer broke down. So the answers to its pulls are those
of the scanner in order, whatever turns the two sides take, and whichever pulls run out of time.

The invariant is the list of the answers still to come. A step of the producer and a timeout leave
it as it is, an answer takes the first away, and a request to stop may cut it off.

## Main definitions

* `Channel.Outlook.step`: what a step does to the answers still to come.
* `Channel.Outlook.steps`, `Channel.Outlook.delivers`: runs with stops, and without.
* `Channel.delivers_in_order`: every run from the start of a channel.
-/

namespace Munch

namespace Scanner

variable {s t : Scanner} {stop : Bool} {item : Except ScanError Frame}

/-- A request to stop does not change what is read. -/
theorem input_next (s : Scanner) (stop : Bool) :
    (s.next stop).2.input = (s.next false).2.input := by
  obtain ⟨input, passes⟩ := s
  cases passes with
  | nil => rfl
  | cons p around =>
    rcases scanned : scanInnermost p around input with ⟨⟨m, q⟩ | pos | ⟨e, pos⟩, left⟩ <;>
      simp only [next, scanned]
    · split <;> rfl
    · split <;> rfl

/-- The last item is the one behind which no pass is open. -/
theorem isLast_iff (h : s.next false = (some item, t)) :
    Channel.isLast item = true ↔ t.passes = [] := by
  obtain ⟨input, passes⟩ := s
  cases passes with
  | nil => cases h
  | cons p around =>
    rcases scanned : scanInnermost p around input with ⟨⟨m, q⟩ | pos | ⟨e, pos⟩, left⟩
    · rw [next_of_found scanned] at h
      cases h
      simp [Channel.isLast, Frame.isSentinel, Frame.isEnd]
    · rw [next_of_exhausted scanned] at h
      cases h
      simp [Channel.isLast, Frame.isSentinel, Frame.isEnd, Frame.ending]
    · rw [next_of_failed scanned] at h
      cases h
      simp [Channel.isLast]

theorem isLast_of_closes (h : Closes item) : Channel.isLast item = true := by
  cases h <;> rfl

/-- Without a request to stop only a finished scanner hands out nothing. -/
theorem finished_of_next_none (h : s.next false = (none, t)) : s.passes = [] := by
  obtain ⟨input, passes⟩ := s
  cases passes with
  | nil => rfl
  | cons p around =>
    rcases scanned : scanInnermost p around input with ⟨⟨m, q⟩ | pos | ⟨e, pos⟩, left⟩
    · rw [next_of_found scanned] at h
      cases h
    · rw [next_of_exhausted scanned] at h
      cases h
    · rw [next_of_failed scanned] at h
      cases h

theorem results_of_error {e : ScanError} (h : s.next false = (some (.error e), t)) :
    s.results = [.error e] := by
  rw [results]
  split <;> simp_all

end Scanner

namespace Channel

variable {k : Continuation} {s t : Scanner} {c d : Channel} {x : Event} {xs : List Event}
  {rest answers : List (Except LexError (Option Frame))}

/-! ## Answers of a producer -/

theorem overran_next (s : Scanner) (stop : Bool) :
    overran s (s.next stop).2 = overran s (s.next false).2 := by
  rw [overran, overran, Scanner.input_next]

theorem completes_iff (k : Continuation) (s : Scanner) (stop : Bool) :
    Completes k s stop ↔ Completes k s false := by
  rw [Completes, Completes, overran_next]

theorem overran_self (s : Scanner) : overran s s = false := by
  simp [overran]

/-- Only a scanner with an open pass reads. -/
theorem passes_of_overran (h : overran s (s.next false).2 = true) : s.passes ≠ [] := by
  intro finished
  rw [Scanner.next_of_finished finished, overran_self] at h
  cases h

/-- A producer that has handed out the last item brings about nothing more. -/
theorem Coming.of_finished (finished : s.passes = []) (k : Continuation) : Coming k s [] := by
  have silent := Scanner.next_of_finished finished false
  refine .done (.inr ?_) silent
  rw [silent, overran_self]

theorem Coming.eq_nil (h : Coming k s rest) (finished : s.passes = []) : rest = [] := by
  have silent := Scanner.next_of_finished finished false
  cases h with
  | item _ called =>
    rw [silent] at called
    cases called
  | done => rfl
  | down _ down => exact absurd finished (passes_of_overran down)

/-- An item that a call hands out is the next one to come, even if a stop is requested. -/
theorem Coming.of_item (h : Coming k s answers) {stop : Bool} {item : Except ScanError Frame}
    (completes : Completes k s false) (called : s.next stop = (some item, t)) :
    ∃ rest, answers = answer item :: rest ∧ (isLast item = true ↔ t.passes = []) ∧
      Coming k t rest := by
  have free : (s.next false).1 = some item := by
    cases stop with
    | false => rw [called]
    | true => exact (Scanner.next_true_eq_some_iff.1 (by rw [called])).1
  cases h with
  | done _ none =>
    rw [none] at free
    cases free
  | down crashing down =>
    rcases completes with settled | within
    · rw [crashing] at settled
      cases settled
    · rw [down] at within
      cases within
  | @item _ u _ rest _ called' coming =>
    rw [called'] at free
    cases free
    refine ⟨rest, rfl, ?_⟩
    cases stop with
    | false =>
      rw [called'] at called
      cases called
      exact ⟨Scanner.isLast_iff called', coming⟩
    | true =>
      -- What comes through a request to stop is the last item.
      have closes := (Scanner.next_true_eq_some_iff.1 (congrArg Prod.fst called)).2
      have last := Scanner.isLast_of_closes closes
      have closed := Scanner.passes_next_true s
      rw [called] at closed
      have nothing := coming.eq_nil ((Scanner.isLast_iff called').1 last)
      rw [nothing]
      exact ⟨iff_of_true last closed, .of_finished closed k⟩

/-- Over an input that does not break, a producer brings about the results of its scanner. -/
theorem coming_results (s : Scanner) : Coming .settled s (s.results.map answer) := by
  induction s using Scanner.results.induct with
  | case1 s t called =>
    rw [Scanner.results_of_none called]
    exact .done (.inl rfl) called
  | case2 s e t called =>
    have closed := Scanner.isLast_iff called |>.1 rfl
    rw [Scanner.results_of_error called]
    exact .item (.inl rfl) called (.of_finished closed _)
  | case3 s f t called _ ih =>
    rw [Scanner.results_of_frame called]
    exact .item (.inl rfl) called ih

/-- Over an input that breaks, the consumer comes to know when all items are delivered. -/
theorem Breaks.coming {items : List (Except ScanError Frame)} (h : Breaks s items) :
    Coming .crashing s (items.map answer ++ [.error .disconnected]) := by
  induction h with
  | down down => exact .down rfl down
  | item called completed _ ih =>
    refine .item (.inr ?_) called ih
    rw [called]
    exact completed

/-! ## Steps -/

/-- The answers that an event leaves to later pulls. -/
def Event.behind : Event → List (Except LexError (Option Frame)) →
    List (Except LexError (Option Frame))
  | .receive _, answers => answers.tail
  | _, answers => answers

/-- What a step does to the answers still to come: a pull takes the first, and without a request to
stop all the others stay. -/
structure Advances (c : Channel) (x : Event)
    (answers rest : List (Except LexError (Option Frame))) : Prop where
  first : ∀ a, x = .receive a → a = answers.headD (.ok none)
  kept : rest <+: x.behind answers
  all : c.raised = false → x.stops = false → rest = x.behind answers

theorem behind_of_silent (silent : ∀ a, x ≠ .receive a) : x.behind answers = answers := by
  cases x with
  | receive a => exact absurd rfl (silent a)
  | _ => rfl

/-- The step is none of a pull, and all answers stay. -/
theorem advances_refl (silent : ∀ a, x ≠ .receive a) : Advances c x answers answers := by
  have same : x.behind answers = answers := behind_of_silent silent
  refine ⟨fun a received => absurd received (silent a), ?_, fun _ _ => same.symm⟩
  exact same.symm ▸ List.prefix_rfl

/-- A pull takes the first answer. -/
theorem advances_receive {a : Except LexError (Option Frame)}
    (first : a = answers.headD (.ok none)) : Advances c (.receive a) answers answers.tail := by
  refine ⟨fun b received => ?_, List.prefix_rfl, fun _ _ => rfl⟩
  cases received
  exact first

/-- After a request to stop answers may be cut off. -/
theorem advances_cut (silent : ∀ a, x ≠ .receive a) (stopped : c.raised = true ∨ x.stops = true) :
    Advances c x answers [] := by
  refine ⟨fun a received => absurd received (silent a), List.nil_prefix, fun quiet still => ?_⟩
  rcases stopped with raised | stops
  · rw [quiet] at raised
    cases raised
  · rw [still] at stops
    cases stops

/-- Nobody listens any more, so nothing comes. -/
theorem Outlook.eq_nil (h : Outlook c answers) (deaf : c.connected = false) : answers = [] := by
  cases h with
  | unheard => rfl
  | working connected | offering connected | ended connected | lost connected =>
    cases deaf.symm.trans connected

/-- A producer at work brings about the answers to come, unless nobody listens. -/
theorem Outlook.of_at_work (h : Outlook c answers)
    (at_work : c.producer = .ready s ∨ c.producer = .scanning s) :
    c.connected = false ∧ answers = [] ∨
      c.connected = true ∧ (c.finished = true ↔ s.passes = []) ∧
        Coming c.continuation s answers := by
  cases h with
  | unheard deaf => exact .inl ⟨deaf, rfl⟩
  | @working t _ connected working finished coming =>
    have same : s = t := by
      rcases at_work with ready | scanning
      · simpa [ready] using working
      · simpa [scanning] using working
    subst same
    exact .inr ⟨connected, finished, coming⟩
  | offering _ other | ended _ other | lost _ other =>
    rw [other] at at_work
    simp at at_work

theorem Outlook.begin (h : Outlook c answers) (ready : c.producer = .ready s) :
    Outlook { c with producer := .scanning s } answers := by
  rcases h.of_at_work (.inl ready) with ⟨deaf, rfl⟩ | ⟨connected, finished, coming⟩
  · exact .unheard deaf
  · exact .working connected (.inr rfl) finished coming

/-- A call of the scanner is completed with the next item, or with none if none was to come or a
stop is requested. -/
theorem Outlook.complete (h : Outlook c answers) (scanning : c.producer = .scanning s)
    (completes : Completes c.continuation s c.raised) :
    ∃ rest, Outlook { c with producer := completed (s.next c.raised) } rest ∧
      Advances c .complete answers rest := by
  rw [completes_iff] at completes
  rcases h.of_at_work (.inr scanning) with ⟨deaf, rfl⟩ | ⟨connected, finished, coming⟩
  · exact ⟨[], .unheard deaf, advances_refl nofun⟩
  · rcases called : s.next c.raised with ⟨_ | item, t⟩
    · have gone : ({ c with producer := completed (none, t) } : Channel).producer = .gone := rfl
      cases raised : c.raised with
      | true => exact ⟨[], .ended connected gone (.inr rfl), advances_cut nofun (.inl raised)⟩
      | false =>
        rw [raised] at called
        have silent := Scanner.finished_of_next_none called
        rw [coming.eq_nil silent]
        exact ⟨[], .ended connected gone (.inl (finished.2 silent)), advances_refl nofun⟩
    · obtain ⟨rest, rfl, last, coming⟩ := coming.of_item completes called
      have unfinished : c.finished = false := by
        cases done : c.finished with
        | false => rfl
        | true =>
          rw [Scanner.next_of_finished (finished.1 done)] at called
          cases called
      exact ⟨_, .offering connected rfl unfinished last coming, advances_refl nofun⟩

/-- A call of the scanner that brings the producer down delivers nothing more. -/
theorem Outlook.crash (h : Outlook c answers) (scanning : c.producer = .scanning s)
    (crashing : c.continuation = .crashing) (down : overran s (s.next c.raised).2 = true) :
    ∃ rest, Outlook { c with producer := .gone } rest ∧ Advances c .crash answers rest := by
  rw [overran_next] at down
  rcases h.of_at_work (.inr scanning) with ⟨deaf, rfl⟩ | ⟨connected, finished, coming⟩
  · exact ⟨[], .unheard deaf, advances_refl nofun⟩
  · cases raised : c.raised with
    | true => exact ⟨[], .ended connected rfl (.inr rfl), advances_cut nofun (.inl raised)⟩
    | false =>
      have unfinished : c.finished = false := by
        cases done : c.finished with
        | false => rfl
        | true => exact absurd (finished.1 done) (passes_of_overran down)
      cases coming with
      | down => exact ⟨_, .lost connected rfl unfinished rfl, advances_refl nofun⟩
      | item completes | done completes =>
        rcases completes with settled | within
        · rw [crashing] at settled
          cases settled
        · rw [down] at within
          cases within

theorem Outlook.take (h : Outlook c answers) {item : Except ScanError Frame}
    (offered : c.producer = .offering item s) (connected : c.connected = true) :
    ∃ rest, answers = answer item :: rest ∧
      Outlook { c with producer := .ready s, finished := c.finished || isLast item } rest := by
  cases h with
  | offering _ at_work unfinished last coming =>
    rw [offered] at at_work
    cases at_work
    refine ⟨_, rfl, .working connected (.inl rfl) ?_ coming⟩
    rw [unfinished, Bool.false_or, last]
  | unheard deaf => cases deaf.symm.trans connected
  | working _ at_work =>
    rw [offered] at at_work
    simp at at_work
  | ended _ at_work | lost _ at_work =>
    rw [offered] at at_work
    cases at_work

/-- That the producer is gone tells the consumer what it needs to know. -/
theorem Outlook.of_gone (h : Outlook c answers) (gone : c.producer = .gone)
    (connected : c.connected = true) :
    answers = if c.finished || c.raised then [] else [.error .disconnected] := by
  cases h with
  | ended _ _ told => rw [if_pos (by simpa using told)]
  | lost _ _ unfinished unraised => rw [if_neg (by simp [unfinished, unraised])]
  | unheard deaf => cases deaf.symm.trans connected
  | working _ at_work =>
    rw [gone] at at_work
    simp at at_work
  | offering _ at_work =>
    rw [gone] at at_work
    cases at_work

/-- A request to stop that the consumer has not made itself reaches the producer only. -/
theorem Outlook.raise (h : Outlook c answers) :
    ∃ rest, Outlook c.raise rest ∧ Advances c .raise answers rest := by
  cases h with
  | working connected working finished coming =>
    exact ⟨_, .working connected working finished coming, advances_refl nofun⟩
  | offering connected offered unfinished last coming =>
    exact ⟨_, .offering connected offered unfinished last coming, advances_refl nofun⟩
  | ended connected gone _ => exact ⟨[], .ended connected gone (.inr rfl), advances_refl nofun⟩
  | lost connected gone =>
    exact ⟨[], .ended connected gone (.inr rfl), advances_cut nofun (.inr rfl)⟩
  | unheard deaf => exact ⟨[], .unheard deaf, advances_refl nofun⟩

theorem Outlook.step (h : Outlook c answers) (step : Step c x d) :
    ∃ rest, Outlook d rest ∧ Advances c x answers rest := by
  cases step with
  | begin ready => exact ⟨answers, h.begin ready, advances_refl nofun⟩
  | complete scanning free => exact h.complete scanning free
  | crash scanning crashing down => exact h.crash scanning crashing down
  | quit _ deaf =>
    rw [h.eq_nil deaf]
    exact ⟨[], .unheard deaf, advances_refl nofun⟩
  | take offered connected =>
    obtain ⟨rest, rfl, outlook⟩ := h.take offered connected
    exact ⟨rest, outlook, advances_receive rfl⟩
  | ended gone connected told =>
    rw [h.of_gone gone connected, if_pos (by simpa using told)]
    exact ⟨[], .unheard rfl, advances_receive rfl⟩
  | lost gone connected unfinished unraised =>
    rw [h.of_gone gone connected, if_neg (by simp [unfinished, unraised])]
    exact ⟨[], .unheard rfl, advances_receive rfl⟩
  | unheard deaf =>
    rw [h.eq_nil deaf]
    exact ⟨[], .unheard deaf, advances_receive rfl⟩
  | timeout => exact ⟨answers, h, advances_refl nofun⟩
  | raise => exact h.raise
  | disconnect => exact ⟨[], .unheard rfl, advances_cut nofun (.inr rfl)⟩

theorem raised_of_step (step : Step c x d) (still : x.stops = false) : d.raised = c.raised := by
  cases step with
  | raise | disconnect => cases still
  | _ => rfl

/-! ## Runs -/

/-- Answers that a request to stop may cut off are the first of those that were to come. -/
theorem take_of_prefix (h : rest <+: answers) (n : Nat) : ∃ m, rest.take n = answers.take m :=
  ⟨_, List.prefix_iff_eq_take.1 ((List.take_prefix n rest).trans h)⟩

/-- Whenever a stop is requested, pulls find the first of the answers to come, and then nothing. -/
theorem Outlook.steps (h : Outlook c answers) (steps : Steps c xs d) :
    ∃ n silent, received xs = answers.take n ++ List.replicate silent (.ok none) := by
  induction steps generalizing answers with
  | refl => exact ⟨0, 0, rfl⟩
  | @step c d e x xs step _ ih =>
    obtain ⟨rest, outlook, advances⟩ := h.step step
    obtain ⟨n, silent, later⟩ := ih outlook
    have kept := advances.kept
    by_cases pull : ∃ a, x = .receive a
    · obtain ⟨a, rfl⟩ := pull
      rw [received_receive, later, advances.first a rfl]
      cases answers with
      | nil =>
        obtain rfl := List.prefix_nil.1 kept
        exact ⟨0, silent + 1, by simp [List.replicate_succ]⟩
      | cons b answers =>
        obtain ⟨m, same⟩ := take_of_prefix kept n
        exact ⟨m + 1, silent, by rw [same]; rfl⟩
    · have no_pull : ∀ a, x ≠ .receive a := fun a same => pull ⟨a, same⟩
      rw [behind_of_silent no_pull] at kept
      obtain ⟨m, same⟩ := take_of_prefix kept n
      exact ⟨m, silent, by rw [received_of_silent no_pull, later, same]⟩

/-- Without a request to stop, pulls find the answers to come, and nothing only behind them. Those
that they have not found are still to come. -/
theorem Outlook.run (h : Outlook c answers) (quiet : c.raised = false) (steps : Steps c xs d)
    (still : ∀ x ∈ xs, x.stops = false) :
    (∃ silent, received xs <+: answers ++ List.replicate silent (.ok none)) ∧
      Outlook d (answers.drop (received xs).length) ∧ d.raised = false := by
  induction steps generalizing answers with
  | refl => exact ⟨⟨0, List.nil_prefix⟩, h, quiet⟩
  | @step c d e x xs step _ ih =>
    have ⟨here, later⟩ := List.forall_mem_cons.1 still
    have raised := raised_of_step step here
    obtain ⟨rest, outlook, advances⟩ := h.step step
    have all := advances.all quiet here
    rw [all] at outlook
    obtain ⟨⟨silent, fits⟩, last, quiet⟩ := ih outlook (raised.trans quiet) later
    by_cases pull : ∃ a, x = .receive a
    · obtain ⟨a, rfl⟩ := pull
      have first := advances.first a rfl
      rw [received_receive]
      cases answers with
      | nil =>
        refine ⟨⟨silent + 1, ?_⟩, by simpa [Event.behind] using last, quiet⟩
        rw [first]
        exact List.cons_prefix_cons.2 ⟨rfl, fits⟩
      | cons b answers =>
        refine ⟨⟨silent, ?_⟩, last, quiet⟩
        rw [first]
        exact List.cons_prefix_cons.2 ⟨rfl, fits⟩
    · have no_pull : ∀ a, x ≠ .receive a := fun a same => pull ⟨a, same⟩
      rw [behind_of_silent no_pull] at fits last
      rw [received_of_silent no_pull]
      exact ⟨⟨silent, fits⟩, last, quiet⟩

/-! ## Pulls return -/

/-- A call of the scanner returns or breaks down, unless it waits for characters. -/
theorem idle_of_scanning (scanning : c.producer = .scanning s) (known : c.continuation ≠ .waiting) :
    ∃ y d, y.ofProducer = true ∧ Step c y d ∧ d.Idle := by
  by_cases completes : Completes c.continuation s c.raised
  · exact ⟨.complete, _, rfl, .complete scanning completes, idle_completed c _⟩
  · simp only [Completes, not_or, Bool.not_eq_false] at completes
    have crashing : c.continuation = .crashing := by
      cases at_end : c.continuation with
      | settled => exact absurd at_end completes.1
      | waiting => exact absurd at_end known
      | crashing => rfl
    exact ⟨.crash, _, rfl, .crash scanning crashing completes.2, .inl rfl⟩

/-- A pull returns when the producer has made its steps, unless that waits for characters. -/
theorem pull_returns (known : c.continuation ≠ .waiting) :
    ∃ ys a d, (∀ y ∈ ys, y.ofProducer = true) ∧ Steps c (ys ++ [.receive a]) d := by
  have finishes {c : Channel} {s : Scanner} (scanning : c.producer = .scanning s)
      (known : c.continuation ≠ .waiting) :
      ∃ y a d, y.ofProducer = true ∧ Steps c [y, .receive a] d := by
    obtain ⟨y, d, own, step, idle⟩ := idle_of_scanning scanning known
    obtain ⟨a, e, receives⟩ := idle.receives
    exact ⟨y, a, e, own, .step step (.step receives (.refl e))⟩
  cases at_work : c.producer with
  | ready s =>
    obtain ⟨y, a, d, own, steps⟩ := finishes (c := { c with producer := .scanning s }) rfl known
    have all : ∀ z ∈ [.begin, y], z.ofProducer = true :=
      List.forall_mem_cons.2 ⟨rfl, List.forall_mem_singleton.2 own⟩
    exact ⟨[.begin, y], a, d, all, .step (.begin at_work) steps⟩
  | scanning s =>
    obtain ⟨y, a, d, own, steps⟩ := finishes at_work known
    exact ⟨[y], a, d, by simp [own], steps⟩
  | offering item s =>
    obtain ⟨a, d, receives⟩ := Idle.receives (.inr ⟨item, s, at_work⟩)
    exact ⟨[], a, d, nofun, .step receives (.refl d)⟩
  | gone =>
    obtain ⟨a, d, receives⟩ := Idle.receives (.inl at_work)
    exact ⟨[], a, d, nofun, .step receives (.refl d)⟩

theorem still_of_producer {ys : List Event} (own : ∀ y ∈ ys, y.ofProducer = true)
    (a : Except LexError (Option Frame)) : ∀ y ∈ ys ++ [.receive a], y.stops = false := by
  intro y hy
  rcases List.mem_append.1 hy with here | last
  · have mine := own y here
    cases y with
    | receive | timeout | raise | disconnect => cases mine
    | begin | complete | crash | quit => rfl
  · obtain rfl := List.mem_singleton.1 last
    rfl

/-- What a pull finds is the first of the answers to come. -/
theorem Outlook.pull (h : Outlook c answers) (quiet : c.raised = false) {ys : List Event}
    {a : Except LexError (Option Frame)} (own : ∀ y ∈ ys, y.ofProducer = true)
    (steps : Steps c (ys ++ [.receive a]) d) :
    a = answers.headD (.ok none) ∧ Outlook d answers.tail ∧ d.raised = false := by
  obtain ⟨⟨silent, fits⟩, outlook, still⟩ := h.run quiet steps (still_of_producer own a)
  have only : received (ys ++ [.receive a]) = [a] := by
    rw [received_append, received_of_producer own]
    rfl
  rw [only] at fits outlook
  refine ⟨?_, by simpa using outlook, still⟩
  cases answers with
  | nil =>
    cases silent with
    | zero => exact absurd (List.prefix_nil.1 fits) (List.cons_ne_nil _ _)
    | succ silent => exact (List.cons_prefix_cons.1 fits).1
  | cons b answers => exact (List.cons_prefix_cons.1 fits).1

/-- Without a request to stop, a channel delivers the answers to come. -/
theorem Outlook.delivers (h : Outlook c answers) (quiet : c.raised = false)
    (known : c.continuation ≠ .waiting) (steps : Steps c xs d)
    (still : ∀ x ∈ xs, x.stops = false) : Delivers answers xs d := by
  obtain ⟨fits, outlook, unraised⟩ := h.run quiet steps still
  obtain ⟨ys, a, e, own, next⟩ := pull_returns (steps.continuation_eq ▸ known)
  refine ⟨fits, ys, e, own, ?_⟩
  rwa [← (outlook.pull unraised own next).1]

/-! ## The start of a channel -/

theorem answer_injective {item other : Except ScanError Frame} (h : answer item = answer other) :
    item = other := by
  cases item <;> cases other <;> cases h <;> rfl

theorem final_answer {item : Except ScanError Frame} :
    Final (answer item) ↔ isLast item = true := by
  constructor
  · rintro ⟨other, last, same⟩
    rwa [answer_injective same]
  · intro last
    exact ⟨item, last, rfl⟩

/-- Behind the last item no answer is to come. -/
theorem results_sealed (s : Scanner) :
    (s.results.map answer).Pairwise fun earlier _ => ¬Final earlier := by
  induction s using Scanner.results.induct with
  | case1 s t called =>
    rw [Scanner.results_of_none called]
    exact .nil
  | case2 s e t called =>
    rw [Scanner.results_of_error called]
    exact List.pairwise_singleton _ _
  | case3 s f t called _ ih =>
    rw [Scanner.results_of_frame called, List.map_cons]
    refine List.pairwise_cons.2 ⟨fun later there last => ?_, ih⟩
    have closed := (Scanner.isLast_iff called).1 (final_answer.1 last)
    rw [Scanner.results_of_none (Scanner.next_of_finished closed false)] at there
    cases there

theorem outlook_spawn (family : Family Automaton) (input : Input) (k : Continuation)
    (coming : Coming k (Scanner.start family input) answers) :
    Outlook { spawn (Scanner.start family input) with continuation := k } answers := by
  refine .working rfl (.inl rfl) ?_ coming
  simp [spawn, Scanner.start]

/-- Behind the last item pulls find nothing. -/
theorem pairwise_of_cut (s : Scanner) (n silent : Nat) :
    ((s.results.map answer).take n ++ List.replicate silent (Except.ok none)).Pairwise
      fun earlier later => Final earlier → later = Except.ok none := by
  refine List.pairwise_append.2 ⟨?_, ?_, ?_⟩
  · refine ((results_sealed s).sublist (List.take_sublist _ _)).imp ?_
    intro earlier later open_end last
    exact absurd last open_end
  · exact List.pairwise_of_forall_mem_list fun _ _ later there _ => List.eq_of_mem_replicate there
  · intro earlier _ later there _
    exact List.eq_of_mem_replicate there

/-- The scanner itself never tells that a producer is gone. -/
theorem not_disconnected_of_cut (s : Scanner) (n silent : Nat) :
    .error .disconnected ∉
      (s.results.map answer).take n ++ List.replicate silent (Except.ok none) := by
  intro there
  rcases List.mem_append.1 there with item | nothing
  · obtain ⟨item, -, same⟩ := List.mem_map.1 (List.mem_of_mem_take item)
    cases item <;> cases same
  · cases List.eq_of_mem_replicate nothing

/-- The answers to the pulls of a consumer are those that its scanner would give without a channel,
in order, whatever turns the two sides take and whichever pulls run out of time. A request to stop
may cut them off. Behind the last item, or where they are cut off, nothing is found, and that the
producer is gone is never an error. Without a request to stop none is missing, and the next one is
found by the next pull. If the input breaks down, the items that the scanner hands out before are
delivered, and then the error, once. -/
theorem delivers_in_order (family : Family Automaton) (input : Input) {xs : List Event}
    {d : Channel} :
    let scanner := Scanner.start family input
    (Steps (spawn scanner) xs d →
      (∃ n silent, received xs =
        (scanner.results.map answer).take n ++ List.replicate silent (.ok none)) ∧
      (received xs).Pairwise (fun earlier later => Final earlier → later = .ok none) ∧
      .error .disconnected ∉ received xs ∧
      ((∀ x ∈ xs, x.stops = false) → Delivers (scanner.results.map answer) xs d)) ∧
    ∃ items, Breaks scanner items ∧
      (Steps { spawn scanner with continuation := .crashing } xs d → (∀ x ∈ xs, x.stops = false) →
        Delivers (items.map answer ++ [.error .disconnected]) xs d) := by
  intro scanner
  constructor
  · intro steps
    have outlook := outlook_spawn family input .settled (coming_results scanner)
    obtain ⟨n, silent, found⟩ := outlook.steps steps
    refine ⟨⟨n, silent, found⟩, ?_, ?_, fun still => outlook.delivers rfl nofun steps still⟩
    · rw [found]
      exact pairwise_of_cut scanner n silent
    · rw [found]
      exact not_disconnected_of_cut scanner n silent
  · obtain ⟨items, breaks⟩ := Scanner.exists_breaks (Scanner.reading_start family input)
    have outlook := outlook_spawn family input .crashing breaks.coming
    exact ⟨items, breaks, fun steps still => outlook.delivers rfl nofun steps still⟩

end Channel

/-- A pull runs out of time before the match is on offer, and another while it is. The match is
delivered all the same. Over an input that breaks down at its beginning a pull finds that out. -/
theorem Channel.delivers_in_order_past_timeout :
    let scanner := Scanner.start (.plain .aOrAbc .nil) (.ofString "a")
    let xs : List Event := [.begin, .timeout ⟨0⟩, .complete, .timeout ⟨0⟩,
      .receive (.ok (some ⟨some 0, "a", {}, 0⟩))]
    let broken := Scanner.start (.plain .aOrAbc .nil) (.ofString "")
    let ys : List Event := [.begin, .crash, .receive (.error .disconnected)]
    (∃ d, Steps (spawn scanner) xs d ∧ Delivers (scanner.results.map answer) xs d) ∧
      ∃ items d, Breaks broken items ∧
        Steps { spawn broken with continuation := .crashing } ys d ∧
        Delivers (items.map answer ++ [.error .disconnected]) ys d := by
  intro scanner xs broken ys
  have first : (scanner.next false).1 = some (.ok ⟨some 0, "a", {}, 0⟩) := by decide +kernel
  have called : scanner.next false =
      (some (.ok ⟨some 0, "a", {}, 0⟩), (scanner.next false).2) := Prod.ext first rfl
  have down : overran broken (broken.next false).2 = true := by decide +kernel
  have steps : Steps (spawn scanner) xs _ :=
    .step (.begin rfl) <| .step (.timeout ⟨0⟩ rfl) <| .step (.complete rfl (.inl rfl)) <|
      .step (.timeout ⟨0⟩ rfl) <|
      .step (@Step.take _ (.ok ⟨some 0, "a", {}, 0⟩) _ (congrArg completed called) rfl) <| .refl _
  have breaks : Steps { spawn broken with continuation := .crashing } ys _ :=
    .step (.begin rfl) <| .step (.crash rfl rfl down) <| .step (.lost rfl rfl rfl rfl) <| .refl _
  refine ⟨⟨_, steps, ?_⟩, ?_⟩
  · exact ((delivers_in_order _ _).1 steps).2.2.2 (by decide)
  · obtain ⟨items, before, delivers⟩ :=
      (@delivers_in_order (.plain .aOrAbc .nil) (.ofString "") ys _).2
    exact ⟨items, _, before, breaks, delivers breaks (by decide)⟩

end Munch
