import Munch.Scanner.Basic

/-!
# Inputs that go on where another one fails

Every read before the failure of an input finds the same over an input that goes on there. So a call
that comes to a result over the input that fails never came to the failure, and it comes to the same
result over the other one. The states that the two calls leave differ in nothing but what is still
to be read.

## Main definitions

* `SameUnless`: calls that come to the same unless the first of them fails.
* `Input.GoesOn`: an input that goes on where another one fails.
* `Scanner.next_goesOn`: a call of a scanner over either of the two.
-/

namespace Munch

/-- Two calls give the same answer and leave related states, unless the first one fails. -/
inductive SameUnless {α β γ : Type} (fails : α → Prop) (R : β → γ → Prop) :
    α × β → α × γ → Prop where
  | fails {a : α} {b : β} {r : α × γ} : fails a → SameUnless fails R (a, b) r
  | same {a : α} {b : β} {c : γ} : R b c → SameUnless fails R (a, b) (a, c)

/-- What the first call gives and leaves, if it does not fail, so does the second. -/
theorem SameUnless.of_eq {α β γ : Type} {fails : α → Prop} {R : β → γ → Prop} {x : α × β}
    {y : α × γ} (h : SameUnless fails R x y) {a : α} {b : β} (called : x = (a, b)) :
    fails a ∨ ∃ c, y = (a, c) ∧ R b c := by
  cases h with
  | fails failed =>
    cases called
    exact .inl failed
  | same related =>
    cases called
    exact .inr ⟨_, rfl, related⟩

/-! ## Inputs -/

namespace Input

/-- The input with another one in the place of its failure. -/
def continuedBy (i more : Input) : Input :=
  { i with rest := i.rest ++ more.rest, failure := more.failure }

/-- The first input fails by `e`, and the second one goes on there with `more`. -/
structure GoesOn (e : ReadError) (more i j : Input) : Prop where
  failure : i.failure = some e
  continued : j = i.continuedBy more

end Input

open Input (GoesOn)

variable {e : ReadError} {more i j : Input}

theorem Input.GoesOn.read (h : GoesOn e more i j) :
    SameUnless (· = .error e) (GoesOn e more) i.read j.read := by
  obtain ⟨rest, failure, reads⟩ := i
  obtain ⟨failing, rfl⟩ := h
  obtain rfl : failure = some e := failing
  cases rest with
  | nil => exact .fails rfl
  | cons c cs => exact .same ⟨rfl, rfl⟩

/-! ## Passes -/

theorem Attempt.readOn_goesOn (a : Attempt) (read : Array Char) (h : GoesOn e more i j) :
    SameUnless (· = .error e) (GoesOn e more) (a.readOn read i) (a.readOn read j) := by
  induction a, read, i using readOn.induct generalizing j with
  | case1 a read i dead =>
    rw [readOn_of_dead dead, readOn_of_dead dead]
    exact .same h
  | case2 a read i live c left hr _ ih =>
    obtain failed | ⟨left', hr', still⟩ := h.read.of_eq hr
    · cases failed
    · rw [readOn_of_char live hr, readOn_of_char live hr']
      exact ih still
  | case3 a read i live left hr =>
    obtain failed | ⟨left', hr', still⟩ := h.read.of_eq hr
    · cases failed
    · rw [readOn_of_end live hr, readOn_of_end live hr']
      exact .same still
  | case4 a read i live e' left hr =>
    rw [readOn_of_failure live hr]
    obtain failed | ⟨left', hr', still⟩ := h.read.of_eq hr
    · cases failed
      exact .fails rfl
    · rw [readOn_of_failure live hr']
      exact .same still

/-- The scan came to the failure. -/
def Outcome.FailsBy (e : ReadError) (o : Outcome) : Prop := ∃ pos, o = .failed e pos

namespace Pass

theorem survey_goesOn (p : Pass) (h : GoesOn e more i j) :
    SameUnless (· = .error e) (GoesOn e more) (p.survey i) (p.survey j) := by
  by_cases ended : p.ended = true
  · rw [survey, survey, if_pos ended, if_pos ended]
    exact .same h
  · rw [survey, survey, if_neg ended, if_neg ended]
    rcases read : p.atHand.readOn #[] i with ⟨reply, left⟩
    obtain rfl | ⟨left', read', still⟩ := (p.atHand.readOn_goesOn #[] h).of_eq read
    · exact .fails rfl
    · rw [read']
      rcases reply with e' | ⟨a, got, atEnd⟩ <;> exact .same still

theorem refill_goesOn (p : Pass) (h : GoesOn e more i j) :
    SameUnless (· = .error e) (GoesOn e more) (p.refill i) (p.refill j) := by
  by_cases empty : (p.buffer.isEmpty && !p.ended) = true
  · rw [refill, refill, if_pos empty, if_pos empty]
    rcases read : i.read with ⟨reply, left⟩
    obtain rfl | ⟨left', read', still⟩ := h.read.of_eq read
    · exact .fails rfl
    · rw [read']
      rcases reply with e' | _ | c <;> exact .same still
  · rw [refill, refill, if_neg empty, if_neg empty]
    exact .same h

theorem scan_goesOn (p : Pass) (h : GoesOn e more i j) :
    SameUnless (Outcome.FailsBy e) (GoesOn e more) (p.scan i) (p.scan j) := by
  induction p, i using scan.induct generalizing j with
  | case1 p i e' left surveyed =>
    rw [scan_of_failed_survey surveyed]
    obtain failed | ⟨left', surveyed', still⟩ := (p.survey_goesOn h).of_eq surveyed
    · cases failed
      exact .fails ⟨_, rfl⟩
    · rw [scan_of_failed_survey surveyed']
      exact .same still
  | case2 p i best q left surveyed =>
    obtain failed | ⟨left', surveyed', still⟩ := (p.survey_goesOn h).of_eq surveyed
    · cases failed
    · rw [scan_of_found surveyed, scan_of_found surveyed']
      exact .same still
  | case3 p i q middle surveyed e' left refilled =>
    rw [scan_of_failed_refill surveyed refilled]
    obtain failed | ⟨middle', surveyed', still⟩ := (p.survey_goesOn h).of_eq surveyed
    · cases failed
    obtain failed | ⟨left', refilled', still⟩ := (q.refill_goesOn still).of_eq refilled
    · cases failed
      exact .fails ⟨_, rfl⟩
    · rw [scan_of_failed_refill surveyed' refilled']
      exact .same still
  | case4 p i q middle surveyed r left refilled nothing =>
    obtain failed | ⟨middle', surveyed', still⟩ := (p.survey_goesOn h).of_eq surveyed
    · cases failed
    obtain failed | ⟨left', refilled', still⟩ := (q.refill_goesOn still).of_eq refilled
    · cases failed
    · rw [scan_of_exhausted surveyed refilled nothing,
        scan_of_exhausted surveyed' refilled' nothing]
      exact .same still
  | case5 p i q middle surveyed r left refilled c cs ahead _ ih =>
    obtain failed | ⟨middle', surveyed', still⟩ := (p.survey_goesOn h).of_eq surveyed
    · cases failed
    obtain failed | ⟨left', refilled', still⟩ := (q.refill_goesOn still).of_eq refilled
    · cases failed
    · rw [scan_of_skip surveyed refilled ahead, scan_of_skip surveyed' refilled' ahead]
      exact ih still

end Pass

namespace Scanner

/-- Scanners in the same state over an input that fails and one that goes on there. -/
structure GoesOn (e : ReadError) (more : Input) (s t : Scanner) : Prop where
  passes : t.passes = s.passes
  input : Input.GoesOn e more s.input t.input

/-- The scanner came to the failure. -/
def FailsBy (e : ReadError) (r : Option (Except ScanError Frame)) : Prop :=
  ∃ pos, r = some (.error ⟨e, pos⟩)

theorem scanInnermost_goesOn (p : Pass) (around : List Pass) (h : Input.GoesOn e more i j) :
    SameUnless (Outcome.FailsBy e) (Input.GoesOn e more) (scanInnermost p around i)
      (scanInnermost p around j) := by
  by_cases outermost : around.isEmpty = true
  · rw [scanInnermost, scanInnermost, if_pos outermost, if_pos outermost]
    exact p.scan_goesOn h
  · rw [scanInnermost, scanInnermost, if_neg outermost, if_neg outermost]
    exact .same h

variable {s t : Scanner}

theorem next_goesOn (stop : Bool) (h : GoesOn e more s t) :
    SameUnless (FailsBy e) (GoesOn e more) (s.next stop) (t.next stop) := by
  obtain ⟨i, passes⟩ := s
  obtain ⟨j, passes'⟩ := t
  obtain ⟨same, input⟩ := h
  obtain rfl : passes' = passes := same
  cases passes' with
  | nil => exact .same ⟨rfl, input⟩
  | cons p around =>
    rcases scanned : scanInnermost p around i with ⟨outcome, left⟩
    rw [next, next]
    obtain ⟨pos, rfl⟩ | ⟨left', scanned', still⟩ :=
      (scanInnermost_goesOn p around input).of_eq scanned
    · exact .fails ⟨pos, by simp [scanned]⟩
    · simp only [scanned, scanned']
      rcases outcome with ⟨m, q⟩ | pos | ⟨e', pos⟩ <;> dsimp only
      · split <;> exact .same ⟨rfl, still⟩
      · split <;> exact .same ⟨rfl, still⟩
      · exact .same ⟨rfl, still⟩

end Scanner

end Munch
