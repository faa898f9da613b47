import Munch.Pass
import Munch.Proofs.Attempt

/-!
# Passes attempt by attempt

A scan is a repetition of single attempts. What an attempt does depends only on the characters
that are not yet consumed, wherever they are: in the buffer, because an earlier attempt looked
at them, or still unread. `Pass.settle` makes this precise. It is the pass with everything that
is ahead in its buffer; attempts and scans commute with it as long as no read fails.

## Main definitions

* `Pass.ahead`, `Pass.settle`: what is not yet consumed, and the pass that owns all of it.
* `Pass.Agrees`: what a pass knows about the end of its input is right.
* `Pass.attempt`: one attempt, the step of `Pass.scan`.
-/

namespace Munch

namespace Input

variable {i j k : Input}

/-- The second input is the first one after any reads. -/
structure Leads (i j : Input) : Prop where
  failure : j.failure = i.failure
  suffix : j.rest <:+ i.rest

theorem Leads.refl (i : Input) : i.Leads i := ⟨rfl, List.suffix_rfl⟩

theorem Leads.trans (h : i.Leads j) (h' : j.Leads k) : i.Leads k :=
  ⟨h'.failure.trans h.failure, h'.suffix.trans h.suffix⟩

theorem leads_of_read {r : Except ReadError (Option Char)} (h : i.read = (r, j)) : i.Leads j := by
  rw [read] at h
  split at h
  · next c cs rest =>
    cases h
    exact ⟨rfl, rest ▸ List.suffix_cons c cs⟩
  · cases h
    exact ⟨rfl, List.suffix_rfl⟩
  · cases h
    exact ⟨rfl, List.suffix_rfl⟩

theorem failure_eq_none_of_read_none (h : i.read = (.ok none, j)) : i.failure = none := by
  rw [read] at h
  split at h
  · cases h
  · next none => exact none
  · cases h

theorem failure_of_read_error {e : ReadError} (h : i.read = (.error e, j)) :
    i.rest = [] ∧ i.failure = some e ∧ j.rest = [] := by
  rw [read] at h
  split at h
  · cases h
  · cases h
  · next nothing failure => cases h; exact ⟨nothing, failure, nothing⟩

end Input

namespace Attempt

variable {a b : Attempt} {read got : Array Char} {input left : Input}

theorem feed_of_dead (dead : a.live.isEmpty) (cs : List Char) : a.feed cs = a := by
  cases cs <;> simp [feed, dead]

theorem feed_append (a : Attempt) (u v : List Char) : a.feed (u ++ v) = (a.feed u).feed v := by
  induction u generalizing a with
  | nil => rfl
  | cons c u ih =>
    by_cases dead : a.live.isEmpty
    · simp only [feed_of_dead dead]
    · rw [List.cons_append, feed, feed, if_neg dead, if_neg dead]
      exact ih (a.take c)

/-- How reading on ends, told by the runs that are live behind all that the input has. -/
inductive Halts (a : Attempt) (input : Input) :
    Except ReadError (Attempt × Array Char × Bool) × Input → Prop where
  | dead {got : Array Char} {left : Input} : input.Leads left →
    (a.feed input.rest).live = [] → Halts a input (.ok (a.feed input.rest, got, false), left)
  | ended {got : Array Char} {left : Input} : input.Leads left → left.rest = [] →
    (a.feed input.rest).live ≠ [] → input.failure = none →
    Halts a input (.ok ((a.feed input.rest).close, got, true), left)
  | failed {e : ReadError} {left : Input} : input.Leads left → left.rest = [] →
    (a.feed input.rest).live ≠ [] → input.failure = some e → Halts a input (.error e, left)

theorem halts_readOn (a : Attempt) (read : Array Char) (input : Input) :
    Halts a input (a.readOn read input) := by
  induction a, read, input using readOn.induct with
  | case1 a read input dead =>
    rw [readOn_of_dead dead]
    have unfed := feed_of_dead dead input.rest
    have halts : a.Halts input (.ok (a.feed input.rest, read, false), input) :=
      .dead (.refl input) (by rw [unfed]; exact List.isEmpty_iff.1 dead)
    rwa [unfed] at halts
  | case2 a read input live c next hr _ ih =>
    rw [readOn_of_char live hr]
    have feed_rest : a.feed input.rest = (a.take c).feed next.rest := by
      rw [Input.rest_of_read_some hr, feed, if_neg live]
    have first := Input.leads_of_read hr
    generalize (a.take c).readOn (read.push c) next = result at ih ⊢
    cases ih with
    | dead leads died =>
      rw [← feed_rest] at died ⊢
      exact .dead (first.trans leads) died
    | ended leads nothing open_end none =>
      rw [← feed_rest] at open_end ⊢
      exact .ended (first.trans leads) nothing open_end (first.failure ▸ none)
    | failed leads nothing open_end failure =>
      rw [← feed_rest] at open_end
      exact .failed (first.trans leads) nothing open_end (first.failure ▸ failure)
  | case3 a read input live next hr =>
    rw [readOn_of_end live hr]
    obtain ⟨nothing, nothing_left⟩ := Input.rest_of_read_none hr
    have halts : a.Halts input (.ok ((a.feed input.rest).close, read, true), next) :=
      .ended (Input.leads_of_read hr) nothing_left (by rw [nothing, feed]; simpa using live)
        (Input.failure_eq_none_of_read_none hr)
    rwa [nothing, feed] at halts
  | case4 a read input live e next hr =>
    rw [readOn_of_failure live hr]
    obtain ⟨nothing, failure, nothing_left⟩ := Input.failure_of_read_error hr
    exact .failed (Input.leads_of_read hr) nothing_left
      (by rw [nothing, feed]; simpa using live) failure

/-- Reading on comes to the same best candidate as having all characters at hand. -/
theorem best_of_readOn {ended : Bool} (h : a.readOn read input = (.ok (b, got, ended), left)) :
    b.best = (a.feed input.rest).close.best := by
  have halts := halts_readOn a read input
  rw [h] at halts
  cases halts with
  | dead _ died => exact (close_of_dead died).symm
  | ended => rfl

theorem leads_of_readOn {r : Except ReadError (Attempt × Array Char × Bool)}
    (h : a.readOn read input = (r, left)) : input.Leads left := by
  have halts := halts_readOn a read input
  rw [h] at halts
  cases halts <;> assumption

/-- Over an input that fails, only an attempt without live runs comes to a result. -/
theorem dead_of_readOn {ended : Bool} (h : a.readOn read input = (.ok (b, got, ended), left)) :
    input.failure = none ∨ (a.feed input.rest).live = [] := by
  have halts := halts_readOn a read input
  rw [h] at halts
  cases halts with
  | dead _ died => exact .inr died
  | ended _ _ _ none => exact .inl none

/-- Where reading on met the end, nothing follows. -/
theorem end_of_readOn (h : a.readOn read input = (.ok (b, got, true), left)) :
    left.rest = [] ∧ left.failure = none := by
  have halts := halts_readOn a read input
  rw [h] at halts
  cases halts with
  | ended leads nothing _ none => exact ⟨nothing, leads.failure.trans none⟩

/-- Reading on fails only with the failure of the input. -/
theorem failure_of_readOn_error {e : ReadError} (h : a.readOn read input = (.error e, left)) :
    input.failure = some e := by
  have halts := halts_readOn a read input
  rw [h] at halts
  cases halts with
  | failed _ _ _ failure => exact failure

end Attempt

namespace Pass

variable {p q r : Pass} {input left middle : Input} {best : Option Candidate}

/-- The characters not yet consumed: those in the buffer, then those not yet read. -/
def ahead (p : Pass) (input : Input) : List Char := p.buffer ++ input.rest

/-- The pass that has everything ahead in its buffer. -/
def settle (p : Pass) (input : Input) : Pass :=
  { p with buffer := p.ahead input, ended := true }

/-- The attempt over everything ahead. -/
def overview (p : Pass) (input : Input) : Attempt :=
  (Attempt.start p.family p.fresh).feed (p.ahead input)

/-- A pass that takes its text to end with the buffer has an input that ends there. -/
def Agrees (p : Pass) (input : Input) : Prop :=
  p.ended = true → input.rest = [] ∧ input.failure = none

theorem agrees_outer (family : Family Automaton) (input : Input) :
    (outer family).Agrees input := nofun

theorem agrees_empty (p : Pass) : p.Agrees .empty := fun _ => ⟨rfl, rfl⟩

@[simp] theorem settle_of_ended (ended : p.ended = true) : p.settle .empty = p := by
  cases p
  simp_all [settle, ahead, Input.empty]

/-! ## Survey and refill -/

/-- A survey finds the result of the attempt over everything ahead. -/
theorem best_of_survey (agrees : p.Agrees input) (h : p.survey input = (.ok (best, q), left)) :
    (p.overview input).close.best = best := by
  rw [survey] at h
  split at h
  · next ended =>
    cases h
    simp [overview, ahead, atHand, (agrees ended).1]
  · split at h
    · next hr =>
      cases h
      rw [Attempt.best_of_readOn hr, overview, ahead, atHand, ← Attempt.feed_append]
    · cases h

theorem dead_of_survey (agrees : p.Agrees input) (h : p.survey input = (.ok (best, q), left)) :
    input.failure = none ∨ (p.overview input).live = [] := by
  rw [survey] at h
  split at h
  · next ended => exact .inl (agrees ended).2
  · split at h
    · next hr =>
      rw [overview, ahead, Attempt.feed_append]
      exact Attempt.dead_of_readOn hr
    · cases h

theorem settle_of_survey (h : p.survey input = (.ok (best, q), left)) :
    q.settle left = { p with buffer := p.ahead input, ended := true, fresh := false } := by
  obtain ⟨family, pos, fresh⟩ := family_of_survey h
  simp only [settle, ahead, family, pos, fresh, survey_conserves h]

theorem agrees_of_survey (agrees : p.Agrees input) (h : p.survey input = (.ok (best, q), left)) :
    q.Agrees left := by
  rw [survey] at h
  split at h
  · cases h; exact agrees
  · split at h
    · next hr =>
      cases h
      intro ended
      obtain rfl : _ = true := ended
      exact Attempt.end_of_readOn hr
    · cases h

theorem leads_of_survey {r : Except ReadError (Option Candidate × Pass)}
    (h : p.survey input = (r, left)) : input.Leads left := by
  rw [survey] at h
  split at h
  · cases h; exact .refl input
  · split at h <;> cases h <;> exact Attempt.leads_of_readOn ‹_›

theorem failure_of_survey_error {e : ReadError} (h : p.survey input = (.error e, left)) :
    input.failure = some e := by
  rw [survey] at h
  split at h
  · cases h
  · split at h <;> cases h
    exact Attempt.failure_of_readOn_error ‹_›

theorem settle_of_refill (h : q.refill middle = (.ok r, left)) :
    r.settle left = q.settle middle := by
  obtain ⟨family, pos, fresh⟩ := family_of_refill h
  simp only [settle, ahead, family, pos, fresh, refill_conserves h]

theorem agrees_of_refill (agrees : q.Agrees middle) (h : q.refill middle = (.ok r, left)) :
    r.Agrees left := by
  rw [refill] at h
  split at h
  · next empty =>
    split at h
    · next hr =>
      cases h
      intro ended
      simp [show q.ended = true from ended] at empty
    · next hr =>
      cases h
      intro _
      refine ⟨(Input.rest_of_read_none hr).2, ?_⟩
      rw [(Input.leads_of_read hr).failure, Input.failure_eq_none_of_read_none hr]
    · cases h
  · cases h; exact agrees

/-- Nothing is buffered after a refill only if nothing is ahead. -/
theorem ahead_of_refill_empty (agrees : q.Agrees middle) (h : q.refill middle = (.ok r, left))
    (nothing : r.buffer = []) : r.ahead left = [] ∧ left.failure = none := by
  have ended : r.ended = true := by
    rw [refill] at h
    split at h
    · split at h
      · cases h; cases nothing
      · cases h; rfl
      · cases h
    · next full =>
      cases h
      simpa [nothing] using full
  obtain ⟨end_of_input, readable⟩ := agrees_of_refill agrees h ended
  exact ⟨by rw [ahead, nothing, end_of_input, List.append_nil], readable⟩

theorem leads_of_refill {o : Except ReadError Pass} (h : q.refill middle = (o, left)) :
    middle.Leads left := by
  rw [refill] at h
  split at h
  · split at h <;> cases h <;> exact Input.leads_of_read ‹_›
  · cases h; exact .refl _

theorem failure_of_refill_error {e : ReadError} (h : q.refill middle = (.error e, left)) :
    middle.failure = some e := by
  rw [refill] at h
  split at h
  · split at h <;> cases h
    exact (Input.failure_of_read_error ‹_›).2.1
  · cases h

/-! ## Single attempts -/

/-- One attempt: the scan ends with an outcome, or it goes on behind a skipped character. -/
def attempt (p : Pass) (input : Input) : (Outcome ⊕ Pass) × Input :=
  match p.survey input with
  | (.error e, left) => (.inl (.failed e p.pos), left)
  | (.ok (some best, q), left) => (.inl (.found (q.consume best).1 (q.consume best).2), left)
  | (.ok (none, q), middle) =>
    match q.refill middle with
    | (.error e, left) => (.inl (.failed e q.pos), left)
    | (.ok r, left) =>
      match r.buffer with
      | [] => (.inl (.exhausted r.pos), left)
      | c :: cs => (.inr { r with buffer := cs, pos := r.pos.visit c }, left)

/-- A scan is made of attempts. -/
theorem scan_eq_attempt (p : Pass) (input : Input) :
    p.scan input = match p.attempt input with
      | (.inl outcome, left) => (outcome, left)
      | (.inr q, left) => q.scan left := by
  rw [attempt]
  rcases surveyed : p.survey input with ⟨e | ⟨best | best, q⟩, middle⟩
  · exact scan_of_failed_survey surveyed
  · rcases refilled : q.refill middle with ⟨e | r, left⟩
    · simp only [refilled, scan_of_failed_refill surveyed refilled]
    · cases ahead : r.buffer with
      | nil => simp only [refilled, ahead, scan_of_exhausted surveyed refilled ahead]
      | cons c cs => simp only [refilled, ahead, scan_of_skip surveyed refilled ahead]
  · exact scan_of_found surveyed

theorem scan_of_ending {outcome : Outcome} (h : p.attempt input = (.inl outcome, left)) :
    p.scan input = (outcome, left) := by
  rw [scan_eq_attempt, h]

theorem scan_of_skipping (h : p.attempt input = (.inr q, left)) : p.scan input = q.scan left := by
  rw [scan_eq_attempt, h]

/-- How an attempt ends, told by what is ahead. A pass that goes on is described by the pass it
settles to, which says nothing about how far it has read. -/
inductive Tries (p : Pass) (input : Input) : (Outcome ⊕ Pass) × Input → Prop where
  | found {best : Candidate} {q : Pass} {left : Input} : input.Leads left →
    (p.overview input).close.best = some best →
    (input.failure = none ∨ (p.overview input).live = []) → q.Agrees left →
    q.settle left = { p with
      buffer := (p.ahead input).drop best.length, ended := true, fresh := false,
      pos := p.pos.visitAll ((p.ahead input).take best.length) } →
    Tries p input (.inl (.found ⟨best.index, (p.ahead input).take best.length, p.pos⟩ q), left)
  | skipped {c : Char} {cs : List Char} {q : Pass} {left : Input} :
    input.Leads left → (p.overview input).close.best = none →
    (input.failure = none ∨ (p.overview input).live = []) → p.ahead input = c :: cs →
    q.Agrees left →
    q.settle left = { p with buffer := cs, ended := true, fresh := false, pos := p.pos.visit c } →
    Tries p input (.inr q, left)
  | exhausted {left : Input} : input.Leads left →
    (p.overview input).close.best = none → input.failure = none → p.ahead input = [] →
    Tries p input (.inl (.exhausted p.pos), left)
  | failed {e : ReadError} {left : Input} : input.Leads left →
    input.failure = some e → Tries p input (.inl (.failed e p.pos), left)

/-- Every attempt ends in one of these ways. -/
theorem tries_attempt (agrees : p.Agrees input) : p.Tries input (p.attempt input) := by
  rw [attempt]
  rcases surveyed : p.survey input with ⟨e | ⟨best, q⟩, middle⟩
  · exact .failed (leads_of_survey surveyed) (failure_of_survey_error surveyed)
  have before := leads_of_survey surveyed
  have chosen := best_of_survey agrees surveyed
  have dead := dead_of_survey agrees surveyed
  have settled := settle_of_survey surveyed
  have agreed := agrees_of_survey agrees surveyed
  obtain ⟨family_eq, pos_eq, fresh_eq⟩ := family_of_survey surveyed
  cases best with
  | some best =>
    have le := (within_of_survey surveyed best rfl).2
    have ahead_eq : q.buffer ++ middle.rest = p.ahead input := survey_conserves surveyed
    have text : q.buffer.take best.length = (p.ahead input).take best.length := by
      rw [← ahead_eq, List.take_append_of_le_length le]
    have rest : (q.buffer.drop best.length) ++ middle.rest
        = (p.ahead input).drop best.length := by
      rw [← ahead_eq, List.drop_append_of_le_length le]
    simp only [consume, text, pos_eq]
    refine .found before chosen dead agreed ?_
    simp [settle, ahead, rest, family_eq, fresh_eq]
  | none =>
    dsimp only
    rcases refilled : q.refill middle with ⟨e | r, left⟩
    · dsimp only
      rw [pos_eq]
      exact .failed (before.trans (leads_of_refill refilled))
        (before.failure ▸ failure_of_refill_error refilled)
    have leads := before.trans (leads_of_refill refilled)
    have same := (settle_of_refill refilled).trans settled
    have ahead_eq : r.ahead left = p.ahead input := congrArg Pass.buffer same
    obtain ⟨family_r, pos_r, fresh_r⟩ := family_of_refill refilled
    cases buffered : r.buffer with
    | nil =>
      obtain ⟨nothing, readable⟩ := ahead_of_refill_empty agreed refilled buffered
      simp only [buffered, pos_r, pos_eq]
      exact .exhausted leads chosen (leads.failure ▸ readable) (ahead_eq ▸ nothing)
    | cons c cs =>
      simp only [buffered]
      have first : p.ahead input = c :: (cs ++ left.rest) := by
        rw [← ahead_eq, ahead, buffered, List.cons_append]
      refine .skipped leads chosen dead first ?_ ?_
      · exact fun ended => agrees_of_refill agreed refilled ended
      · simp [settle, ahead, family_r, family_eq, fresh_r, fresh_eq, pos_r, pos_eq]

theorem tries_of_attempt {result : (Outcome ⊕ Pass) × Input} (agrees : p.Agrees input)
    (h : p.attempt input = result) : p.Tries input result :=
  h ▸ tries_attempt agrees

/-- Induction along the attempts of a scan. -/
theorem scan_induction {motive : (p : Pass) → (input : Input) → p.Agrees input → Prop}
    (ending : ∀ p input agrees outcome left, p.attempt input = (.inl outcome, left) →
      motive p input agrees)
    (skip : ∀ p input agrees q left agreed, p.attempt input = (.inr q, left) →
      motive q left agreed → motive p input agrees)
    (p : Pass) (input : Input) (agrees : p.Agrees input) : motive p input agrees := by
  generalize hn : (p.ahead input).length = n
  induction n using Nat.strongRecOn generalizing p input with
  | ind n ih =>
    rcases attempted : p.attempt input with ⟨outcome | q, left⟩
    · exact ending p input agrees outcome left attempted
    · have tries := tries_of_attempt agrees attempted
      cases tries with
      | skipped _ _ _ first agreed settled =>
        have shorter : q.ahead left = _ := congrArg Pass.buffer settled
        refine skip p input agrees q left agreed attempted (ih _ ?_ q left agreed rfl)
        rw [← hn, first, shorter]
        exact Nat.lt_succ_self _

/-! ## Only what is ahead counts -/

theorem settle_congr {i j : Input} (h : i.rest = j.rest) (p : Pass) : p.settle i = p.settle j := by
  simp [settle, ahead, h]

end Pass

/-- The outcome with everything ahead of its pass in the buffer. -/
def Outcome.settle (left : Input) : Outcome → Outcome
  | .found m q => .found m (q.settle left)
  | .exhausted pos => .exhausted pos
  | .failed e pos => .failed e pos

namespace Pass

variable {p q : Pass} {input left : Input}

/-- What a scan comes to, whatever has been read on the way. -/
def outcome (p : Pass) (input : Input) : Outcome := (p.scan input).1.settle (p.scan input).2

theorem outcome_of_ending {o : Outcome} (h : p.attempt input = (.inl o, left)) :
    p.outcome input = o.settle left := by
  rw [outcome, scan_of_ending h]

theorem outcome_of_skipping (h : p.attempt input = (.inr q, left)) :
    p.outcome input = q.outcome left := by
  rw [outcome, outcome, scan_of_skipping h]

/-- What an attempt of a pass that owns its text comes to. -/
def verdict (p : Pass) : Outcome ⊕ Pass :=
  match p.atHand.close.best, p.buffer with
  | some best, _ =>
    let (m, q) := ({ p with fresh := false } : Pass).consume best
    .inl (.found m q)
  | none, [] => .inl (.exhausted p.pos)
  | none, c :: cs => .inr { p with buffer := cs, pos := p.pos.visit c, fresh := false }

theorem attempt_of_ended (ended : p.ended = true) (input : Input) :
    p.attempt input = (p.verdict, input) := by
  have surveyed : p.survey input = (.ok (p.atHand.close.best, { p with fresh := false }), input) := by
    simp [survey, ended]
  have refilled : ({ p with fresh := false } : Pass).refill input =
      (.ok { p with fresh := false }, input) := by
    simp [refill, ended]
  rw [attempt, surveyed, verdict]
  cases p.atHand.close.best with
  | some best => rfl
  | none =>
    simp only [refilled]
    cases p.buffer <;> rfl

/-- While no read fails, an attempt comes to the same as with everything ahead in the buffer. -/
theorem Tries.verdict {r : (Outcome ⊕ Pass) × Input} (h : p.Tries input r)
    (readable : input.failure = none) :
    (p.settle input).verdict = r.1.map (·.settle r.2) (·.settle r.2) := by
  have view : (p.settle input).atHand = p.overview input := rfl
  have text : (p.settle input).buffer = p.ahead input := rfl
  rw [Pass.verdict, view, text]
  cases h with
  | found _ chosen _ _ settled =>
    rw [chosen]
    simp only [consume, Sum.map_inl, Outcome.settle, settled]
    rfl
  | skipped _ chosen _ first _ settled =>
    rw [chosen, first]
    simp only [Sum.map_inr, settled]
    rfl
  | exhausted _ chosen _ nothing =>
    rw [chosen, nothing]
    rfl
  | failed _ failure =>
    rw [readable] at failure
    cases failure

/-- While no read fails, a scan comes to the same as with everything ahead in the buffer. -/
theorem scan_settle (agrees : p.Agrees input) (readable : input.failure = none) (other : Input) :
    (p.settle input).scan other = (p.outcome input, other) := by
  induction p, input, agrees using scan_induction with
  | ending p input agrees o left attempted =>
    have tries := tries_of_attempt agrees attempted
    have settled : (p.settle input).attempt other = _ := attempt_of_ended rfl other
    rw [tries.verdict readable] at settled
    rw [scan_of_ending settled, outcome_of_ending attempted]
  | skip p input agrees q left agreed attempted ih =>
    have tries := tries_of_attempt agrees attempted
    have settled : (p.settle input).attempt other = _ := attempt_of_ended rfl other
    rw [tries.verdict readable] at settled
    rw [scan_of_skipping settled, outcome_of_skipping attempted]
    cases tries with
    | skipped leads => exact ih (leads.failure.trans readable)

theorem leads_of_scan (agrees : p.Agrees input) : input.Leads (p.scan input).2 := by
  induction p, input, agrees using scan_induction with
  | ending p input agrees o left attempted =>
    have tries := tries_of_attempt agrees attempted
    rw [scan_of_ending attempted]
    cases tries <;> assumption
  | skip p input agrees q left agreed attempted ih =>
    have tries := tries_of_attempt agrees attempted
    rw [scan_of_skipping attempted]
    cases tries with
    | skipped leads => exact leads.trans ih

/-- The pass behind a match is right about the end of the input. -/
theorem agrees_of_scan (agrees : p.Agrees input) {m : Match} {q : Pass}
    (h : p.scan input = (.found m q, left)) : q.Agrees left := by
  induction p, input, agrees using scan_induction with
  | ending p input agrees o rest attempted =>
    rw [scan_of_ending attempted] at h
    cases h
    cases tries_of_attempt agrees attempted with
    | found _ _ _ agreed => exact agreed
  | skip p input agrees r rest agreed attempted ih =>
    rw [scan_of_skipping attempted] at h
    exact ih h

/-- A scan fails only with the failure of the input. -/
theorem failure_of_scan_failed (agrees : p.Agrees input) {e : ReadError} {pos : Position}
    (h : p.scan input = (.failed e pos, left)) : input.failure = some e := by
  induction p, input, agrees using scan_induction with
  | ending p input agrees o rest attempted =>
    rw [scan_of_ending attempted] at h
    cases h
    cases tries_of_attempt agrees attempted with
    | failed _ failure => exact failure
  | skip p input agrees r rest agreed attempted ih =>
    have tries := tries_of_attempt agrees attempted
    rw [scan_of_skipping attempted] at h
    cases tries with
    | skipped leads => exact leads.failure ▸ ih h

/-- A scan comes to the end only where no read fails. -/
theorem failure_of_scan_exhausted (agrees : p.Agrees input) {pos : Position}
    (h : p.scan input = (.exhausted pos, left)) : input.failure = none := by
  induction p, input, agrees using scan_induction with
  | ending p input agrees o rest attempted =>
    rw [scan_of_ending attempted] at h
    cases h
    cases tries_of_attempt agrees attempted with
    | exhausted _ _ readable => exact readable
  | skip p input agrees r rest agreed attempted ih =>
    have tries := tries_of_attempt agrees attempted
    rw [scan_of_skipping attempted] at h
    cases tries with
    | skipped leads => exact leads.failure ▸ ih h

end Pass
end Munch
