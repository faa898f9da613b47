import Munch.Attempt
import Munch.Position

/-!
# A pass over one text

A pass scans one text with one family from left to right. It keeps the characters that were
read ahead and not yet consumed. Each attempt either finds a match, which is consumed and
handed out, or finds none; then exactly one character is skipped and the next attempt starts
behind it. Start links count in the first attempt of the pass only.

The outermost pass reads its characters from an input. An inner pass owns its text from the
beginning and never reads.

## Main definitions

* `Pass.survey`: one attempt, which reads no further than its last live run.
* `Pass.scan`: attempts until one finds a match, the text is exhausted, or a read fails.
-/

namespace Munch

/-- A match: the index of the member, the characters matched, and where they start. -/
structure Match where
  index : Nat
  text : List Char
  pos : Position

/-- A pass under way. -/
structure Pass where
  family : Family Automaton
  /-- The characters read and not yet consumed. -/
  buffer : List Char := []
  /-- The position of the first character not yet consumed. -/
  pos : Position := {}
  /-- No character follows the buffered ones. -/
  ended : Bool := false
  /-- No attempt was made yet. -/
  fresh : Bool := true

/-- How a scan for the next match ends. -/
inductive Outcome where
  /-- A match, and the pass behind it. -/
  | found (found : Match) (pass : Pass)
  /-- No match follows; the position is that of the end of the text. -/
  | exhausted (pos : Position)
  /-- A read failed; the position is that of the first character not yet consumed. -/
  | failed (error : ReadError) (pos : Position)

namespace Pass

/-- The pass over an input. -/
def outer (family : Family Automaton) : Pass := { family }

/-- The pass over a matched text, which starts where the match starts. -/
def inner (family : Family Automaton) (m : Match) : Pass :=
  { family, buffer := m.text, pos := m.pos, ended := true }

/-- The attempt over the buffered characters. -/
def atHand (p : Pass) : Attempt := (Attempt.start p.family p.fresh).feed p.buffer

/-- The best candidate at this place. Reads while a run is live and nothing is buffered. -/
def survey (p : Pass) (input : Input) : Except ReadError (Option Candidate × Pass) × Input :=
  if p.ended then (.ok (p.atHand.close.best, { p with fresh := false }), input)
  else
    match p.atHand.readOn #[] input with
    | (.ok (a, read, ended), input) =>
      (.ok (a.best, { p with buffer := p.buffer ++ read.toList, ended, fresh := false }), input)
    | (.error e, input) => (.error e, input)

/-- Read a character if none is buffered. Only a family without members comes to this, as no
run of it looks at the text. -/
def refill (p : Pass) (input : Input) : Except ReadError Pass × Input :=
  if p.buffer.isEmpty && !p.ended then
    match input.read with
    | (.ok (some c), input) => (.ok { p with buffer := [c] }, input)
    | (.ok none, input) => (.ok { p with ended := true }, input)
    | (.error e, input) => (.error e, input)
  else (.ok p, input)

/-- Consume the text of a candidate. -/
def consume (p : Pass) (best : Candidate) : Match × Pass :=
  let text := p.buffer.take best.length
  (⟨best.index, text, p.pos⟩,
    { p with buffer := p.buffer.drop best.length, pos := p.pos.visitAll text })

variable {p q : Pass} {input left : Input}

/-- A survey loses nothing: buffered and unread characters stay the same. -/
theorem survey_conserves {best : Option Candidate} (h : p.survey input = (.ok (best, q), left)) :
    q.buffer ++ left.rest = p.buffer ++ input.rest := by
  rw [survey] at h
  split at h
  · cases h; rfl
  · split at h
    · next hr =>
      cases h
      have := Attempt.readOn_conserves hr
      simp_all
    · cases h

/-- A survey changes nothing but the buffer and what is known about the end. -/
theorem family_of_survey {best : Option Candidate} (h : p.survey input = (.ok (best, q), left)) :
    q.family = p.family ∧ q.pos = p.pos ∧ q.fresh = false := by
  rw [survey] at h
  split at h
  · cases h; exact ⟨rfl, rfl, rfl⟩
  · split at h
    · cases h; exact ⟨rfl, rfl, rfl⟩
    · cases h

theorem length_atHand_le (p : Pass) : p.atHand.length ≤ p.buffer.length := by
  have := Attempt.length_feed_le (Attempt.start p.family p.fresh) p.buffer
  simpa [atHand] using this

theorem within_atHand (p : Pass) : Attempt.Within p.atHand.length p.atHand.best :=
  Attempt.Within.feed (fun _ h => by simp at h) p.buffer

/-- A candidate is a nonempty part of the buffer. -/
theorem within_of_survey {best : Option Candidate} (h : p.survey input = (.ok (best, q), left)) :
    Attempt.Within q.buffer.length best := by
  have le := p.length_atHand_le
  rw [survey] at h
  split at h
  · cases h
    exact p.within_atHand.close.mono le
  · split at h
    · next hr =>
      cases h
      refine (p.within_atHand.readOn hr).mono ?_
      have := Attempt.length_of_readOn hr
      simp only [List.length_append, Array.length_toList, List.size_toArray,
        List.length_nil] at this ⊢
      omega
    · cases h

theorem refill_conserves (h : p.refill input = (.ok q, left)) :
    q.buffer ++ left.rest = p.buffer ++ input.rest := by
  rw [refill] at h
  split at h
  · next empty =>
    split at h
    · next hr =>
      cases h
      simp_all [Input.rest_of_read_some hr]
    · next hr =>
      cases h
      simp [Input.rest_of_read_none hr]
    · cases h
  · cases h; rfl

/-- Reading a character changes nothing but the buffer and what is known about the end. -/
theorem family_of_refill (h : p.refill input = (.ok q, left)) :
    q.family = p.family ∧ q.pos = p.pos ∧ q.fresh = p.fresh := by
  rw [refill] at h
  split at h
  · split at h <;> cases h <;> exact ⟨rfl, rfl, rfl⟩
  · cases h; exact ⟨rfl, rfl, rfl⟩

/-- Attempts until one finds a match, the text is exhausted, or a read fails. -/
def scan (p : Pass) (input : Input) : Outcome × Input :=
  match surveyed : p.survey input with
  | (.error e, input') => (.failed e p.pos, input')
  | (.ok (some best, q), input') => (.found (q.consume best).1 (q.consume best).2, input')
  | (.ok (none, q), input') =>
    match refilled : q.refill input' with
    | (.error e, input'') => (.failed e q.pos, input'')
    | (.ok r, input'') =>
      match ahead : r.buffer with
      | [] => (.exhausted r.pos, input'')
      | c :: cs =>
        have : cs.length + input''.rest.length < p.buffer.length + input.rest.length := by
          have h₁ := congrArg List.length (survey_conserves surveyed)
          have h₂ := congrArg List.length (refill_conserves refilled)
          simp only [ahead, List.length_append, List.length_cons] at h₁ h₂
          omega
        scan { r with buffer := cs, pos := r.pos.visit c } input''
termination_by p.buffer.length + input.rest.length

section Scan

variable {r : Pass} {middle : Input}

theorem scan_of_failed_survey {e : ReadError} (h : p.survey input = (.error e, left)) :
    p.scan input = (.failed e p.pos, left) := by
  rw [scan]
  split <;> simp_all

theorem scan_of_found {best : Candidate} (h : p.survey input = (.ok (some best, q), left)) :
    p.scan input = (.found (q.consume best).1 (q.consume best).2, left) := by
  rw [scan]
  split <;> simp_all

theorem scan_of_failed_refill {e : ReadError} (h : p.survey input = (.ok (none, q), middle))
    (h' : q.refill middle = (.error e, left)) : p.scan input = (.failed e q.pos, left) := by
  rw [scan]
  split <;> simp_all
  split <;> simp_all

theorem scan_of_exhausted (h : p.survey input = (.ok (none, q), middle))
    (h' : q.refill middle = (.ok r, left)) (none_ahead : r.buffer = []) :
    p.scan input = (.exhausted r.pos, left) := by
  rw [scan]
  split <;> simp_all
  split <;> simp_all
  split <;> simp_all

/-- Without a match, one character is skipped. -/
theorem scan_of_skip (h : p.survey input = (.ok (none, q), middle))
    (h' : q.refill middle = (.ok r, left)) {c : Char} {cs : List Char}
    (ahead : r.buffer = c :: cs) :
    p.scan input = scan { r with buffer := cs, pos := r.pos.visit c } left := by
  rw [scan]
  split <;> simp_all
  split <;> simp_all
  split <;> simp_all

/-- What is consumed on the way to a match: skipped characters, then the match, which is not
empty. Nothing else is lost, and positions count exactly what was consumed. -/
theorem tiles_of_scan {m : Match} (h : p.scan input = (.found m q, left)) :
    ∃ skipped, p.buffer ++ input.rest = skipped ++ (m.text ++ (q.buffer ++ left.rest)) ∧
      m.text ≠ [] ∧ m.pos = p.pos.visitAll skipped ∧ q.pos = m.pos.visitAll m.text ∧
      q.family = p.family ∧ q.fresh = false := by
  induction p, input using scan.induct with
  | case1 p input e _ hs => rw [scan_of_failed_survey hs] at h; cases h
  | case2 p input best r _ hs =>
    rw [scan_of_found hs] at h
    cases h
    obtain ⟨hf, hp, hr⟩ := family_of_survey hs
    obtain ⟨pos, le⟩ := within_of_survey hs best rfl
    refine ⟨[], ?_, ?_, ?_, rfl, hf, hr⟩
    · simp [consume, ← survey_conserves hs, ← List.append_assoc]
    · simp only [consume, ne_eq, List.take_eq_nil_iff, not_or]
      exact ⟨by omega, List.ne_nil_of_length_pos (by omega)⟩
    · simp [consume, hp]
  | case3 p input r middle hs e _ hr => rw [scan_of_failed_refill hs hr] at h; cases h
  | case4 p input r middle hs t _ hr none_ahead =>
    rw [scan_of_exhausted hs hr none_ahead] at h; cases h
  | case5 p input r middle hs t _ hr c cs ahead _ ih =>
    rw [scan_of_skip hs hr ahead] at h
    obtain ⟨skipped, tiles, nonempty, hm, hq, hf, fresh⟩ := ih h
    obtain ⟨hf₁, hp₁, -⟩ := family_of_survey hs
    obtain ⟨hf₂, hp₂, -⟩ := family_of_refill hr
    refine ⟨c :: skipped, ?_, nonempty, ?_, hq, by rw [hf, hf₂, hf₁], fresh⟩
    · rw [← survey_conserves hs, ← refill_conserves hr, ahead]
      simp only [List.cons_append, ← tiles]
    · rw [hm, Position.visitAll_cons, hp₂, hp₁]

end Scan

end Pass
end Munch
