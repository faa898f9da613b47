import Munch.Proofs.Cancelling

/-!
# How far a producer runs ahead

A producer offers one item and begins its next call only when the item was taken. So it is at most
one call ahead of its consumer, whatever turns the two sides take, whichever pulls run out of time
and whoever requests a stop or hangs up. Its scanner is then where it would be without a channel
after as many calls, and the input is read no further than the next item needs.

`Channel.Paced` counts the events of a run against the state of the producer. A step preserves it,
and the bounds are read off it at the end of a run.

## Main definitions

* `Scanner.inline`: a scanner behind a number of calls, without a channel.
* `Channel.Paced`: the calls begun and completed and the items delivered in a run.
* `Channel.Begun`: a call that was begun in a run.
* `Channel.runs_one_call_ahead`: the bounds at the end of every run.
-/

namespace Munch

/-! ## Calls read on -/

namespace Pass

/-- A scan takes no read back. -/
theorem reads_le_scan (p : Pass) (input : Input) : input.reads ≤ (p.scan input).2.reads := by
  cases ended : p.ended with
  | true => exact Nat.le_of_eq (congrArg Input.reads (scan_of_ended ended input).symm)
  | false =>
    have agrees : p.Agrees input := fun known => by simp [ended] at known
    have shorter := (leads_of_scan agrees).suffix.length_le
    obtain ⟨m, q, left, scanned, -, within⟩ | beyond := reach_of_scan ended input
    · rw [scanned] at shorter ⊢
      simp only [Input.Within] at within shorter ⊢
      omega
    · rw [Input.Beyond] at beyond
      omega

end Pass

namespace Scanner

variable {s t : Scanner} {item : Except ScanError Frame}

/-- The scanner behind a number of calls, when no stop is requested. -/
def inline (s : Scanner) (n : Nat) : Scanner := s.afterCalls (List.replicate n false)

@[simp] theorem inline_zero (s : Scanner) : s.inline 0 = s := rfl

theorem inline_succ (s : Scanner) (n : Nat) : s.inline (n + 1) = ((s.inline n).next false).2 := by
  rw [inline, List.replicate_succ', afterCalls_append]
  rfl

/-- A call takes no read back. -/
theorem reads_le_next (s : Scanner) (stop : Bool) :
    s.input.reads ≤ (s.next stop).2.input.reads := by
  rw [input_next]
  obtain ⟨input, passes⟩ := s
  cases passes with
  | nil => exact Nat.le_refl _
  | cons p around =>
    rcases scanned : scanInnermost p around input with ⟨o, left⟩
    rw [input_of_next scanned]
    cases around with
    | nil =>
      obtain rfl : (p.scan input).2 = left := congrArg Prod.snd scanned
      exact p.reads_le_scan input
    | cons q around =>
      obtain rfl := input_of_scanInnermost scanned
      exact Nat.le_refl _

theorem reads_inline_mono (s : Scanner) {m n : Nat} (le : m ≤ n) :
    (s.inline m).input.reads ≤ (s.inline n).input.reads := by
  induction le with
  | refl => exact Nat.le_refl _
  | step _ ih =>
    rw [inline_succ]
    exact Nat.le_trans ih (reads_le_next _ _)

/-- A call that hands out an item in spite of a request to stop does what it does without one. -/
theorem next_false_of_some {stop : Bool} (h : s.next stop = (some item, t)) :
    s.next false = (some item, t) := by
  cases stop with
  | false => exact h
  | true =>
    obtain ⟨handed, closes⟩ := next_true_eq_some_iff.1 (congrArg Prod.fst h)
    have called : s.next false = (some item, (s.next false).2) := Prod.ext handed rfl
    have closed := (isLast_iff called).1 (isLast_of_closes closes)
    have closed' := passes_next_true s
    have input := input_next s true
    rw [h] at closed' input
    rw [called]
    generalize (s.next false).2 = u at *
    cases t
    cases u
    simp_all

end Scanner

namespace Channel

/-- The call is completed. -/
def Event.completes : Event → Bool
  | .complete => true
  | _ => false

/-- The consumer receives an item of the scanner. -/
def Event.delivers : Event → Bool
  | .receive (.ok (some _)) | .receive (.error (.scan _)) => true
  | _ => false

@[simp] theorem delivers_answer (item : Except ScanError Frame) :
    Event.delivers (.receive (answer item)) = true := by
  cases item <;> rfl

/-- Where a producer is when so many items were delivered, so many calls begun and so many
completed. -/
inductive Paced (scanner : Scanner) : Nat → Nat → Nat → Producer → Prop where
  | ready (n : Nat) : Paced scanner n n n (.ready (scanner.inline n))
  | scanning (n : Nat) : Paced scanner n (n + 1) n (.scanning (scanner.inline n))
  | offering {n : Nat} {item : Except ScanError Frame} {s : Scanner} :
    (scanner.inline n).next false = (some item, s) →
    Paced scanner n (n + 1) (n + 1) (.offering item s)
  | gone {n begun done : Nat} : begun ≤ n + 1 → done ≤ n + 1 → Paced scanner n begun done .gone

variable {scanner : Scanner} {n begun done : Nat} {c d : Channel} {x : Event} {xs : List Event}

/-- A producer is at most one call ahead. -/
theorem Paced.le {p : Producer} (h : Paced scanner n begun done p) :
    begun ≤ n + 1 ∧ done ≤ n + 1 := by
  cases h with
  | ready => exact ⟨Nat.le_succ n, Nat.le_succ n⟩
  | scanning => exact ⟨Nat.le_refl _, Nat.le_succ n⟩
  | offering => exact ⟨Nat.le_refl _, Nat.le_refl _⟩
  | gone begins completes => exact ⟨begins, completes⟩

theorem Paced.eq_inline {s : Scanner} (h : Paced scanner n begun done (.ready s)) :
    s = scanner.inline n := by
  cases h
  rfl

theorem Paced.called {item : Except ScanError Frame} {s : Scanner}
    (h : Paced scanner n begun done (.offering item s)) :
    (scanner.inline n).next false = (some item, s) := by
  cases h with
  | offering called => exact called

/-- A completed call leaves its item on offer, or the producer is gone. -/
theorem paced_completed (scanner : Scanner) (n : Nat) (stop : Bool) :
    Paced scanner n (n + 1) (n + 1) (completed ((scanner.inline n).next stop)) := by
  rcases called : (scanner.inline n).next stop with ⟨_ | item, s⟩
  · exact .gone (Nat.le_refl _) (Nat.le_refl _)
  · exact .offering (Scanner.next_false_of_some called)

/-- A step counts what it does. -/
theorem Paced.step (h : Paced scanner n begun done c.producer) (step : Step c x d) :
    Paced scanner (n + if x.delivers then 1 else 0) (begun + if x.begins then 1 else 0)
      (done + if x.completes then 1 else 0) d.producer := by
  cases step with
  | begin ready =>
    rw [ready] at h
    cases h
    exact .scanning n
  | complete scanning =>
    rw [scanning] at h
    cases h
    exact paced_completed scanner n c.raised
  | crash scanning =>
    rw [scanning] at h
    cases h
    exact .gone (Nat.le_refl _) (Nat.le_succ n)
  | quit offered =>
    rw [offered] at h
    cases h
    exact .gone (Nat.le_refl _) (Nat.le_refl _)
  | take offered =>
    rw [offered] at h
    cases h with
    | offering called =>
      -- The scanner that stands by is the one behind the call whose item is taken.
      obtain rfl : scanner.inline (n + 1) = _ :=
        (scanner.inline_succ n).trans (congrArg Prod.snd called)
      rw [delivers_answer]
      exact .ready (n + 1)
  | ended | lost | unheard | timeout | raise | disconnect => exact h

/-- A run counts what its steps do. -/
theorem Paced.steps (h : Paced scanner n begun done c.producer) (steps : Steps c xs d) :
    Paced scanner (n + xs.countP Event.delivers) (begun + xs.countP Event.begins)
      (done + xs.countP Event.completes) d.producer := by
  induction steps generalizing n begun done with
  | refl => exact h
  | step first _ ih =>
    have later := ih (h.step first)
    simpa only [List.countP_cons, Nat.add_assoc, Nat.add_comm, Nat.add_left_comm] using later

theorem paced_of_steps {start : Channel} (idle : start.producer = .ready scanner)
    (steps : Steps start xs d) : Paced scanner (xs.countP Event.delivers)
      (xs.countP Event.begins) (xs.countP Event.completes) d.producer := by
  have first : Paced scanner 0 0 0 start.producer := idle ▸ .ready 0
  simpa using first.steps steps

/-- A call of the scanner, as it was then, was begun in a run. -/
inductive Begun (start : Channel) (xs : List Event) (d : Channel) (s : Scanner) : Prop where
  | intro {before after : List Event} {c : Channel} : xs = before ++ .begin :: after →
    Steps start before c → c.producer = .ready s → Steps c (.begin :: after) d → Begun start xs d s

/-- A call that was begun is one without a channel, behind items that were all delivered. -/
theorem Begun.eq_inline {start : Channel} (idle : start.producer = .ready scanner) {s : Scanner}
    (h : Begun start xs d s) : ∃ n ≤ xs.countP Event.delivers, s = scanner.inline n := by
  obtain ⟨rfl, before, ready, -⟩ := h
  have paced := paced_of_steps idle before
  rw [ready] at paced
  refine ⟨_, ?_, paced.eq_inline⟩
  rw [List.countP_append]
  exact Nat.le_add_right _ _

/-- Whatever turns producer and consumer take from where the producer was spawned, it has begun at
most one call more than items were delivered, and at most one item was produced and not delivered.
The one on offer is the next item of the scanner, and no call that was begun reads further than that
item needs. -/
theorem runs_one_call_ahead {start : Channel} (idle : start.producer = .ready scanner)
    (steps : Steps start xs d) :
    let delivered := xs.countP Event.delivers
    xs.countP Event.begins ≤ delivered + 1 ∧ xs.countP Event.completes ≤ delivered + 1 ∧
      (∀ item s, d.producer = .offering item s →
        (scanner.inline delivered).next false = (some item, s)) ∧
      ∀ s, Begun start xs d s → ∀ stop,
        (s.next stop).2.input.reads ≤ (scanner.inline (delivered + 1)).input.reads := by
  intro delivered
  have paced := paced_of_steps idle steps
  refine ⟨paced.le.1, paced.le.2, ?_, ?_⟩
  · intro item s offered
    rw [offered] at paced
    exact paced.called
  · intro s begun stop
    obtain ⟨n, le, rfl⟩ := begun.eq_inline idle
    rw [Scanner.input_next, ← Scanner.inline_succ]
    exact scanner.reads_inline_mono (Nat.succ_le_succ le)

/-- Over `aa` the first match is delivered, although a pull ran out of time before. Then the second
one waits: a pull under a limit of time, a request to stop and a hang-up do not make the producer go
on. It has made three reads, as the second match needs the end of the text. -/
theorem runs_one_call_ahead_past_timeout :
    let scanner := Scanner.start (.plain .aOrAbc .nil) (.ofString "aa")
    let second : Except ScanError Frame := .ok ⟨some 0, "a", ⟨0, 1⟩, 0⟩
    let xs : List Event := [.begin, .timeout ⟨0⟩, .complete,
      .receive (.ok (some ⟨some 0, "a", {}, 0⟩)), .begin, .complete, .timeout ⟨0⟩, .raise,
      .disconnect]
    (spawn scanner).producer = .ready scanner ∧ xs.countP Event.delivers = 1 ∧
      (scanner.inline 2).input.reads = 3 ∧ ∃ d, Steps (spawn scanner) xs d ∧
      d.producer = .offering second (scanner.inline 2) ∧
      Begun (spawn scanner) xs d (scanner.inline 1) ∧
      xs.countP Event.begins ≤ 2 ∧ xs.countP Event.completes ≤ 2 ∧
      (scanner.inline 1).next false = (some second, scanner.inline 2) ∧
      ((scanner.inline 1).next false).2.input.reads ≤ (scanner.inline 2).input.reads := by
  intro scanner second xs
  let first : Except ScanError Frame := .ok ⟨some 0, "a", {}, 0⟩
  have called : scanner.next false = (some first, scanner.inline 1) := by
    have handed : (scanner.next false).1 = some first := by decide +kernel
    exact Prod.ext handed rfl
  have calledNext : (scanner.inline 1).next false = (some second, scanner.inline 2) := by
    have handed : ((scanner.inline 1).next false).1 = some second := by decide +kernel
    exact Prod.ext handed rfl
  have reads : (scanner.inline 2).input.reads = 3 := by decide +kernel
  let taken : Channel := spawn (scanner.inline 1)
  let waiting : Channel :=
    { producer := .offering second (scanner.inline 2), raised := true, connected := false }
  have before : Steps (spawn scanner)
      [.begin, .timeout ⟨0⟩, .complete, .receive (answer first)] taken :=
    .step (.begin rfl) <| .step (.timeout ⟨0⟩ rfl) <| .step (.complete rfl (.inl rfl)) <|
      .step (@Step.take _ first _ (congrArg completed called) rfl) <| .refl _
  have offered : Steps taken [.begin, .complete]
      { spawn scanner with producer := completed ((scanner.inline 1).next false) } :=
    .step (.begin rfl) <| .step (.complete rfl (.inl rfl)) <| .refl _
  rw [calledNext] at offered
  have after : Steps taken [.begin, .complete, .timeout ⟨0⟩, .raise, .disconnect] waiting :=
    offered.trans (.step (.timeout ⟨0⟩ rfl) <| .step (.raise _) <| .step (.disconnect rfl) <|
      .refl _)
  have steps : Steps (spawn scanner) xs waiting := before.trans after
  obtain ⟨begins, completes, next, reach⟩ := runs_one_call_ahead rfl steps
  have begun : Begun (spawn scanner) xs waiting (scanner.inline 1) := .intro rfl before rfl after
  exact ⟨rfl, rfl, reads, waiting, steps, rfl, begun, begins, completes, next second _ rfl,
    reach _ begun false⟩

end Channel

end Munch
