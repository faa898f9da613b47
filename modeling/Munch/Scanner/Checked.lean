import Munch.Automaton.Checked
import Munch.Scanner.Schedule

/-!
# Scanners whose lookups can fail

A scanner knows a run by two numbers, the index of a member and a state of that member. Here its
attempts, scans and calls are told once more with nothing but these numbers. Before a run moves or
is asked whether it accepts, its member is looked up in the family and its state in the table of the
member; an index out of range ends everything with `none`.

## Main definitions

* `Checked.Attempt`: an attempt whose runs are pairs of numbers.
* `Checked.scan`, `Checked.next`, `Checked.calls`: the scanner over such attempts.
* `Attempt.InRange`: the runs of an attempt are members in one of their states.
* `Checked.next_eq`: whatever the scanner, no index is out of range.
-/

namespace Munch

open Automaton (State)

/-- A run by its numbers: the index of its member, and its state. -/
def Run.numbers (r : Run) : Nat × Nat := (r.index, r.state)

namespace Checked

/-- The table of a member. -/
def table (f : Family Automaton) (i : Nat) : Option (Array State) := do
  let (a, _) ← f.get? i
  return a.states

/-- The runs still live by their numbers, the characters taken, and the best candidate so far. -/
structure Attempt where
  live : List (Nat × Nat)
  length : Nat := 0
  best : Option Candidate := none

namespace Attempt

/-- Nothing taken yet, every member in its start states. -/
def start (f : Family Automaton) (fresh : Bool) : Option Attempt := do
  let runs ← f.members.zipIdx.mapM fun (a, i) => do
    let qs ← starts a.states fresh
    return qs.map (i, ·)
  return { live := runs.flatten }

/-- The runs that are left behind a character, and the best candidate when `length` characters were
taken with it. -/
def stepAll (f : Family Automaton) (c : Char) (length : Nat) :
    List (Nat × Nat) → Option Candidate → Option (List (Nat × Nat) × Option Candidate)
  | [], best => some ([], best)
  | (i, q) :: runs, best => do
    match ← step (← table f i) q c with
    | none => stepAll f c length runs best
    | some r =>
      let accepting ← accepts (← table f i) r
      let (live, best) ← stepAll f c length runs
        (if accepting then Candidate.better best ⟨i, length⟩ else best)
      return ((i, r) :: live, best)

/-- The best candidate when the text ends behind `length` characters. -/
def closeAll (f : Family Automaton) (length : Nat) :
    List (Nat × Nat) → Option Candidate → Option (Option Candidate)
  | [], best => some best
  | (i, q) :: runs, best => do
    let accepting ← acceptsAtEnd (← table f i) q
    closeAll f length runs (if accepting then Candidate.better best ⟨i, length⟩ else best)

/-- Every live run takes a character. -/
def take (f : Family Automaton) (a : Attempt) (c : Char) : Option Attempt := do
  let (live, best) ← stepAll f c (a.length + 1) a.live a.best
  return { live, length := a.length + 1, best }

/-- The text ends here, and with it every run. -/
def close (f : Family Automaton) (a : Attempt) : Option Attempt := do
  let best ← closeAll f a.length a.live a.best
  return { a with live := [], best }

/-- Take characters at hand, in order, while a run is live. -/
def feed (f : Family Automaton) (a : Attempt) : List Char → Option Attempt
  | [] => some a
  | c :: cs => if a.live.isEmpty then some a else do (← a.take f c).feed f cs

/-- Read on while a run is live. -/
def readOn (f : Family Automaton) (a : Attempt) (read : Array Char) (input : Input) :
    Option (Except ReadError (Attempt × Array Char × Bool) × Input) :=
  if a.live.isEmpty then some (.ok (a, read, false), input)
  else
    match h : input.read with
    | (.ok (some c), input') => do
      have : input'.rest.length < input.rest.length := by simp [Input.rest_of_read_some h]
      (← a.take f c).readOn f (read.push c) input'
    | (.ok none, input') => do return (.ok (← a.close f, read, true), input')
    | (.error e, input') => some (.error e, input')
termination_by input.rest.length

section ReadOn

variable {f : Family Automaton} {a : Attempt} {read : Array Char} {input left : Input}

theorem readOn_of_dead (dead : a.live.isEmpty) :
    a.readOn f read input = some (.ok (a, read, false), input) := by
  rw [readOn, if_pos dead]

theorem readOn_of_char (live : ¬a.live.isEmpty) {c : Char}
    (h : input.read = (.ok (some c), left)) :
    a.readOn f read input = (a.take f c).bind (·.readOn f (read.push c) left) := by
  rw [readOn, if_neg live]
  split <;> simp_all

theorem readOn_of_end (live : ¬a.live.isEmpty) (h : input.read = (.ok none, left)) :
    a.readOn f read input = (a.close f).bind fun b => some (.ok (b, read, true), left) := by
  rw [readOn, if_neg live]
  split <;> simp_all

theorem readOn_of_failure (live : ¬a.live.isEmpty) {e : ReadError}
    (h : input.read = (.error e, left)) : a.readOn f read input = some (.error e, left) := by
  rw [readOn, if_neg live]
  split <;> simp_all

end ReadOn

end Attempt

/-- The best candidate at this place. -/
def survey (p : Pass) (input : Input) :
    Option (Except ReadError (Option Candidate × Pass) × Input) := do
  let a ← Attempt.start p.family p.fresh
  let a ← a.feed p.family p.buffer
  if p.ended then
    let a ← a.close p.family
    return (.ok (a.best, { p with fresh := false }), input)
  else
    match ← a.readOn p.family #[] input with
    | (.ok (a, read, ended), input) =>
      return (.ok (a.best, { p with buffer := p.buffer ++ read.toList, ended, fresh := false }),
        input)
    | (.error e, input) => return (.error e, input)

end Checked

/-! ## Attempts in range -/

/-- An attempt by its numbers. -/
def Attempt.numbers (a : Attempt) : Checked.Attempt :=
  ⟨a.live.map Run.numbers, a.length, a.best⟩

/-- The run is that of a member in one of its states. -/
structure Run.InRange (f : Family Automaton) (r : Run) : Prop where
  member : f.members[r.index]? = some r.automaton
  state : r.state < r.automaton.size

/-- The runs are those of members in one of their states, and the best candidate is a member. -/
structure Attempt.InRange (f : Family Automaton) (a : Attempt) : Prop where
  live : ∀ r ∈ a.live, r.InRange f
  best : ∀ c ∈ a.best, c.index < f.members.length

section InRange

variable {f : Family Automaton} {a b : Attempt} {r : Run} {runs : List Run}
  {best : Option Candidate} {length : Nat} {c : Char}

theorem Run.InRange.step (h : r.InRange f) {s : Run} (moves : r.step c = some s) :
    s.InRange f := by
  obtain ⟨q, step, rfl⟩ := Option.map_eq_some_iff.1 moves
  exact ⟨h.member, r.automaton.step_lt_size step⟩

/-- Runs with a property compete one by one. -/
theorem Attempt.contend_filter_cons (p : Run → Bool) (best : Option Candidate) (length : Nat)
    (r : Run) (runs : List Run) :
    contend best length ((r :: runs).filter p) =
      contend (if p r then Candidate.better best ⟨r.index, length⟩ else best) length
        (runs.filter p) := by
  rw [List.filter_cons]
  split <;> rfl

theorem Attempt.index_of_contend {n : Nat} (before : ∀ c ∈ best, c.index < n)
    (runs_lt : ∀ r ∈ runs, r.index < n) : ∀ c ∈ contend best length runs, c.index < n := by
  rw [contend]
  induction runs generalizing best with
  | nil => exact before
  | cons r runs ih =>
    refine ih (fun c hc => ?_) fun s hs => runs_lt s (List.mem_cons_of_mem r hs)
    have here := runs_lt r List.mem_cons_self
    simp only [Candidate.better] at hc
    grind

theorem Run.InRange.index_lt (h : r.InRange f) : r.index < f.members.length :=
  (List.getElem?_eq_some_iff.1 h.member).1

theorem Attempt.inRange_start (f : Family Automaton) (fresh : Bool) :
    (start f fresh).InRange f where
  live r hr := by
    simp only [start, List.mem_flatMap, List.mem_map] at hr
    obtain ⟨⟨a, i⟩, among, q, starts, rfl⟩ := hr
    exact ⟨List.mem_zipIdx_iff_getElem?.1 among, a.starts_lt_size starts⟩
  best := nofun

theorem Attempt.InRange.take (h : a.InRange f) (c : Char) : (a.take c).InRange f := by
  have live : ∀ r ∈ (a.take c).live, r.InRange f := by
    intro r hr
    obtain ⟨before, among, moves⟩ := List.mem_filterMap.1 hr
    exact (h.live before among).step moves
  refine ⟨live, index_of_contend h.best fun r hr => ?_⟩
  exact (live r (List.mem_filter.1 hr).1).index_lt

theorem Attempt.InRange.close (h : a.InRange f) : a.close.InRange f := by
  refine ⟨nofun, index_of_contend h.best fun r hr => ?_⟩
  exact (h.live r (List.mem_filter.1 hr).1).index_lt

theorem Attempt.InRange.feed (h : a.InRange f) (cs : List Char) : (a.feed cs).InRange f := by
  induction cs generalizing a with
  | nil => exact h
  | cons c cs ih =>
    rw [Attempt.feed]
    split
    · exact h
    · exact ih (h.take c)

theorem Attempt.InRange.readOn {read got : Array Char} {input left : Input} {ended : Bool}
    (h : a.InRange f) (reads : a.readOn read input = (.ok (b, got, ended), left)) :
    b.InRange f := by
  induction a, read, input using Attempt.readOn.induct with
  | case1 a read input dead =>
    rw [readOn_of_dead dead] at reads
    cases reads
    exact h
  | case2 a read input live c next hr _ ih =>
    rw [readOn_of_char live hr] at reads
    exact ih (h.take c) reads
  | case3 a read input live next hr =>
    rw [readOn_of_end live hr] at reads
    cases reads
    exact h.close
  | case4 a read input live e next hr =>
    rw [readOn_of_failure live hr] at reads
    cases reads

end InRange

namespace Checked

variable {f : Family Automaton} {a : Munch.Attempt} {r : Run} {runs : List Run}
  {best : Option Candidate} {length : Nat} {c : Char}

theorem table_eq (h : r.InRange f) : table f r.index = some r.automaton.states := by
  have member := h.member
  rw [Family.getElem?_members] at member
  obtain ⟨⟨b, inner⟩, found, same⟩ := Option.map_eq_some_iff.1 member
  simp [table, found, ← same]

theorem step_eq (h : r.InRange f) :
    step r.automaton.states r.state c = some (r.automaton.step r.state c) := by
  have state : r.state < r.automaton.states.size := h.state
  simp [step, Automaton.step, state]

namespace Attempt

theorem start_eq (f : Family Automaton) (fresh : Bool) :
    start f fresh = some (Munch.Attempt.start f fresh).numbers := by
  have all (a : Automaton) : starts a.states fresh = some (a.starts fresh) := by
    rw [starts, Automaton.starts]
    split
    · exact startStates_eq a.wellFormed a.nonempty
    · rfl
  have runs : f.members.zipIdx.mapM (fun (a, i) => some ((a.starts fresh).map (i, ·))) =
      some (f.members.zipIdx.map fun (a, i) => (a.starts fresh).map (i, ·)) := List.mapM_pure
  simp [start, all, runs, Munch.Attempt.start, Munch.Attempt.numbers, List.flatMap,
    Function.comp_def, Run.numbers]

theorem stepAll_eq (inRange : ∀ r ∈ runs, r.InRange f) :
    stepAll f c length (runs.map Run.numbers) best =
      some ((runs.filterMap (·.step c)).map Run.numbers,
        Munch.Attempt.contend best length ((runs.filterMap (·.step c)).filter (·.accepts))) := by
  induction runs generalizing best with
  | nil => rfl
  | cons r runs ih =>
    obtain ⟨here, behind⟩ := List.forall_mem_cons.1 inRange
    rw [List.map_cons, Run.numbers, stepAll, List.filterMap_cons]
    simp only [Option.bind_eq_bind, table_eq here, Option.bind_some, step_eq here]
    cases moves : r.automaton.step r.state c with
    | none =>
      have ends : r.step c = none := by simp [Run.step, moves]
      rw [ends]
      exact ih behind
    | some q =>
      have goes : r.step c = some { r with state := q } := by simp [Run.step, moves]
      have next := here.step goes
      rw [goes]
      simp only [Munch.Attempt.contend_filter_cons, accepts_eq next.state, Option.bind_some,
        ih behind]
      rfl

theorem closeAll_eq (inRange : ∀ r ∈ runs, r.InRange f) :
    closeAll f length (runs.map Run.numbers) best =
      some (Munch.Attempt.contend best length (runs.filter (·.acceptsAtEnd))) := by
  induction runs generalizing best with
  | nil => rfl
  | cons r runs ih =>
    obtain ⟨here, behind⟩ := List.forall_mem_cons.1 inRange
    rw [List.map_cons, Run.numbers, closeAll, Munch.Attempt.contend_filter_cons]
    simp only [Option.bind_eq_bind, table_eq here, Option.bind_some,
      acceptsAtEnd_eq r.automaton.wellFormed here.state, ih behind]
    rfl

theorem take_eq (h : a.InRange f) (c : Char) : take f a.numbers c = some (a.take c).numbers := by
  simp only [take, Munch.Attempt.numbers, stepAll_eq h.live, Option.bind_eq_bind, Option.bind_some]
  rfl

theorem close_eq (h : a.InRange f) : close f a.numbers = some a.close.numbers := by
  simp only [close, Munch.Attempt.numbers, closeAll_eq h.live, Option.bind_eq_bind,
    Option.bind_some]
  rfl

theorem isEmpty_numbers (a : Munch.Attempt) : a.numbers.live.isEmpty = a.live.isEmpty := by
  simp [Munch.Attempt.numbers]

theorem feed_eq (h : a.InRange f) (cs : List Char) :
    feed f a.numbers cs = some (a.feed cs).numbers := by
  induction cs generalizing a with
  | nil => rfl
  | cons c cs ih =>
    rw [feed, Munch.Attempt.feed, isEmpty_numbers, take_eq h]
    split
    · rfl
    · exact ih (h.take c)

/-- What reading on comes to, with the attempt by its numbers. -/
def ofReading : Except ReadError (Munch.Attempt × Array Char × Bool) × Input →
    Except ReadError (Attempt × Array Char × Bool) × Input
  | (.ok (a, read, ended), input) => (.ok (a.numbers, read, ended), input)
  | (.error e, input) => (.error e, input)

theorem readOn_eq (h : a.InRange f) (read : Array Char) (input : Input) :
    readOn f a.numbers read input = some (ofReading (a.readOn read input)) := by
  induction a, read, input using Munch.Attempt.readOn.induct with
  | case1 a read input dead =>
    rw [Munch.Attempt.readOn_of_dead dead, readOn_of_dead (by rwa [isEmpty_numbers])]
    rfl
  | case2 a read input live c next hr _ ih =>
    rw [Munch.Attempt.readOn_of_char live hr, readOn_of_char (by rwa [isEmpty_numbers]) hr,
      take_eq h]
    exact ih (h.take c)
  | case3 a read input live next hr =>
    rw [Munch.Attempt.readOn_of_end live hr, readOn_of_end (by rwa [isEmpty_numbers]) hr,
      close_eq h]
    rfl
  | case4 a read input live e next hr =>
    rw [Munch.Attempt.readOn_of_failure live hr,
      readOn_of_failure (by rwa [isEmpty_numbers]) hr]
    rfl

end Attempt

theorem survey_eq (p : Pass) (input : Input) : survey p input = some (p.survey input) := by
  have begun := Attempt.inRange_start p.family p.fresh
  have inRange : p.atHand.InRange p.family := begun.feed p.buffer
  have fed := Attempt.feed_eq begun p.buffer
  rw [← Pass.atHand] at fed
  rw [survey, Pass.survey, Attempt.start_eq]
  simp only [Option.bind_eq_bind, Option.bind_some, fed]
  split
  · rw [Attempt.close_eq inRange]
    rfl
  · rw [Attempt.readOn_eq inRange]
    rcases p.atHand.readOn #[] input with ⟨e | ⟨a, read, ended⟩, left⟩ <;> rfl

/-- Attempts until one finds a match, the text is exhausted, or a read fails. -/
def scan (p : Pass) (input : Input) : Option (Outcome × Input) :=
  match surveyed : survey p input with
  | none => none
  | some (.error e, input') => some (.failed e p.pos, input')
  | some (.ok (some best, q), input') =>
    some (.found (q.consume best).1 (q.consume best).2, input')
  | some (.ok (none, q), input') =>
    match refilled : q.refill input' with
    | (.error e, input'') => some (.failed e q.pos, input'')
    | (.ok r, input'') =>
      match ahead : r.buffer with
      | [] => some (.exhausted r.pos, input'')
      | c :: cs =>
        have : cs.length + input''.rest.length < p.buffer.length + input.rest.length := by
          rw [survey_eq, Option.some.injEq] at surveyed
          have h₁ := congrArg List.length (Pass.survey_conserves surveyed)
          have h₂ := congrArg List.length (Pass.refill_conserves refilled)
          simp only [ahead, List.length_append, List.length_cons] at h₁ h₂
          omega
        scan { r with buffer := cs, pos := r.pos.visit c } input''
termination_by p.buffer.length + input.rest.length

theorem scan_eq (p : Pass) (input : Input) : scan p input = some (p.scan input) := by
  induction p, input using Pass.scan.induct with
  | case1 p input e _ hs =>
    have := survey_eq p input
    rw [Pass.scan_of_failed_survey hs, scan]
    split <;> simp_all
  | case2 p input best r _ hs =>
    have := survey_eq p input
    rw [Pass.scan_of_found hs, scan]
    split <;> simp_all
  | case3 p input r middle hs e _ hr =>
    have := survey_eq p input
    rw [Pass.scan_of_failed_refill hs hr, scan]
    split <;> simp_all
    split <;> simp_all
  | case4 p input r middle hs t _ hr none_ahead =>
    have := survey_eq p input
    rw [Pass.scan_of_exhausted hs hr none_ahead, scan]
    split <;> simp_all
    split <;> simp_all
    split <;> simp_all
  | case5 p input r middle hs t _ hr c cs ahead _ ih =>
    have := survey_eq p input
    rw [Pass.scan_of_skip hs hr ahead, scan]
    split <;> simp_all
    split <;> simp_all
    split <;> simp_all

/-- Only the outermost pass reads the input. -/
def scanInnermost (p : Pass) (around : List Pass) (input : Input) : Option (Outcome × Input) := do
  if around.isEmpty then scan p input
  else
    let (outcome, _) ← scan p .empty
    return (outcome, input)

/-- The next result. A match is looked up in the family for its inner family. -/
def next (s : Scanner) (stop : Bool) : Option (Option (Except ScanError Frame) × Scanner) :=
  match s.passes with
  | [] => some (none, s)
  | p :: around => do
    match ← scanInnermost p around s.input with
    | (.found m q, input) =>
      if stop then return (none, .finished input)
      let (_, inner) ← q.family.get? m.index
      return (some (.ok ⟨some m.index, String.ofList m.text, m.pos, around.length⟩),
        ⟨input, inner.toList.map (.inner · m) ++ q :: around⟩)
    | (.exhausted pos, input) =>
      if stop && !around.isEmpty then return (none, .finished input)
      return (some (.ok (.ending pos around.length)), ⟨input, around⟩)
    | (.failed e pos, input) => return (some (.error ⟨e, pos⟩), .finished input)

/-- The results of calls in order. -/
def calls (s : Scanner) : List Bool → Option (List (Option (Except ScanError Frame)))
  | [] => some []
  | stop :: rest => do
    let (result, s) ← next s stop
    return result :: (← calls s rest)

/-- A match is a member of the family. -/
theorem index_of_survey {p q : Pass} {input left : Input} {best : Candidate}
    (h : p.survey input = (.ok (some best, q), left)) :
    best.index < q.family.members.length := by
  have inRange : p.atHand.InRange p.family := (Attempt.inRange_start p.family p.fresh).feed p.buffer
  rw [(Pass.family_of_survey h).1]
  rw [Pass.survey] at h
  split at h
  · simp only [Prod.mk.injEq, Except.ok.injEq] at h
    exact inRange.close.best best h.1.1
  · split at h
    · next reads =>
      simp only [Prod.mk.injEq, Except.ok.injEq] at h
      exact (inRange.readOn reads).best best h.1.1
    · cases h

theorem index_of_scan {p q : Pass} {input left : Input} {m : Match}
    (h : p.scan input = (.found m q, left)) : m.index < q.family.members.length := by
  induction p, input using Pass.scan.induct with
  | case1 p input e _ hs => rw [Pass.scan_of_failed_survey hs] at h; cases h
  | case2 p input best r _ hs =>
    rw [Pass.scan_of_found hs] at h
    cases h
    have inside := index_of_survey hs
    exact inside
  | case3 p input r middle hs e _ hr => rw [Pass.scan_of_failed_refill hs hr] at h; cases h
  | case4 p input r middle hs t _ hr none_ahead =>
    rw [Pass.scan_of_exhausted hs hr none_ahead] at h; cases h
  | case5 p input r middle hs t _ hr c cs ahead _ ih =>
    rw [Pass.scan_of_skip hs hr ahead] at h
    exact ih h

theorem get?_of_scanInnermost {p q : Pass} {around : List Pass} {input left : Input} {m : Match}
    (h : Scanner.scanInnermost p around input = (.found m q, left)) :
    ∃ a inner, q.family.get? m.index = some (a, inner) := by
  have inside : m.index < q.family.members.length := by
    rw [Scanner.scanInnermost] at h
    split at h
    · exact index_of_scan h
    · have scanned : p.scan .empty = (.found m q, (p.scan .empty).2) :=
        Prod.ext (Prod.ext_iff.1 h).1 rfl
      exact index_of_scan scanned
  have member := List.getElem?_eq_getElem inside
  rw [Family.getElem?_members] at member
  obtain ⟨⟨a, inner⟩, found, -⟩ := Option.map_eq_some_iff.1 member
  exact ⟨a, inner, found⟩

theorem scanInnermost_eq (p : Pass) (around : List Pass) (input : Input) :
    scanInnermost p around input = some (Scanner.scanInnermost p around input) := by
  rw [scanInnermost, Scanner.scanInnermost]
  split
  · exact scan_eq p input
  · rw [scan_eq]
    rfl

/-- Whatever the scanner, its next result takes no lookup out of range. -/
theorem next_eq (s : Scanner) (stop : Bool) : next s stop = some (s.next stop) := by
  obtain ⟨input, _ | ⟨p, around⟩⟩ := s
  · rfl
  simp only [next, Scanner.next, scanInnermost_eq, Option.bind_eq_bind, Option.bind_some]
  rcases scanned : Scanner.scanInnermost p around input with ⟨⟨m, q⟩ | pos | ⟨e, pos⟩, left⟩
  · obtain ⟨a, inner, found⟩ := get?_of_scanInnermost scanned
    have opened : Scanner.opened q m = inner.toList.map (.inner · m) := by
      simp [Scanner.opened, Family.inner?, found]
    simp only [found, opened, Option.bind_some]
    split <;> rfl
  · dsimp only
    split <;> rfl
  · rfl

theorem calls_eq (s : Scanner) (schedule : List Bool) :
    calls s schedule = some (s.calls schedule) := by
  induction schedule generalizing s with
  | nil => rfl
  | cons stop rest ih =>
    simp only [calls, Scanner.calls, next_eq, Option.bind_eq_bind, Option.bind_some, ih]
    rfl

end Checked

end Munch
