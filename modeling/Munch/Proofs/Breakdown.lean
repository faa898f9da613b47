import Munch.Channel.Outlook
import Munch.Proofs.Stream

/-!
# An input that breaks down

A scanner comes to the end of its outermost pass only by a read that meets the end of the input. If
the input breaks down there instead, some call reads on behind the characters known, and no call
before it hands out the sentinel or a read failure.

Each stage of a call, from reading on up to the call itself, either makes no read that meets the
end, and then every read brings in a character and the outermost pass is not known to have ended,
or it makes one. Inner passes own their text and do not read.

## Main definitions

* `Input.Within`, `Input.Beyond`: reads that bring in characters, and a read behind them.
* `Scanner.Reading`: a scanner whose outermost pass has not met the end.
* `Scanner.exists_breaks`: what such a scanner hands out before its input breaks down.
-/

namespace Munch

namespace Input

variable {i j k : Input}

/-- Every read on the way from one state of an input to another brought in a character. -/
def Within (i j : Input) : Prop := j.reads + j.rest.length = i.reads + i.rest.length

/-- A read on the way met the end of the characters. -/
def Beyond (i j : Input) : Prop := i.reads + i.rest.length < j.reads

theorem Within.beyond (h : i.Within j) (h' : j.Beyond k) : i.Beyond k := by
  rw [Beyond, ← h]
  exact h'

theorem Within.trans (h : i.Within j) (h' : j.Within k) : i.Within k := by
  rw [Within, h', h]

theorem within_of_read {c : Char} (h : i.read = (.ok (some c), j)) : i.Within j := by
  rw [read] at h
  split at h <;> cases h
  next rest =>
    simp only [Within, rest, List.length_cons]
    omega

theorem beyond_of_read {r : Except ReadError (Option Char)} (h : i.read = (r, j))
    (last : ∀ c, r ≠ .ok (some c)) : i.Beyond j := by
  rw [read] at h
  split at h <;> cases h
  · exact absurd rfl (last _)
  · next rest _ =>
    simp only [Beyond, rest, List.length_nil]
    omega
  · next rest _ =>
    simp only [Beyond, rest, List.length_nil]
    omega

end Input

theorem Attempt.reach_of_readOn {a : Attempt} {read : Array Char} {input left : Input}
    {r : Except ReadError (Attempt × Array Char × Bool)} (h : a.readOn read input = (r, left)) :
    (∃ b got, r = .ok (b, got, false) ∧ input.Within left) ∨
      (∀ b got, r ≠ .ok (b, got, false)) ∧ input.Beyond left := by
  induction a, read, input using readOn.induct with
  | case1 a read input dead =>
    rw [readOn_of_dead dead] at h
    cases h
    exact .inl ⟨a, read, rfl, rfl⟩
  | case2 a read input live c next hr _ ih =>
    rw [readOn_of_char live hr] at h
    have within := Input.within_of_read hr
    obtain ⟨b, got, same, later⟩ | ⟨ended, beyond⟩ := ih h
    · exact .inl ⟨b, got, same, within.trans later⟩
    · exact .inr ⟨ended, within.beyond beyond⟩
  | case3 a read input live next hr =>
    rw [readOn_of_end live hr] at h
    cases h
    exact .inr ⟨by simp, Input.beyond_of_read hr (by simp)⟩
  | case4 a read input live e next hr =>
    rw [readOn_of_failure live hr] at h
    cases h
    exact .inr ⟨by simp, Input.beyond_of_read hr (by simp)⟩

namespace Pass

variable {p q r : Pass} {input left middle : Input}

/-- A survey of a pass that has not met the end either reads no further than the characters, or it
meets the end and knows. -/
theorem reach_of_survey (reading : p.ended = false)
    {o : Except ReadError (Option Candidate × Pass)} (h : p.survey input = (o, left)) :
    (∃ best q, o = .ok (best, q) ∧ q.ended = false ∧ input.Within left) ∨
      (∀ best q, o = .ok (best, q) → q.ended = true) ∧ input.Beyond left := by
  rw [survey, reading] at h
  simp only [Bool.false_eq_true, ↓reduceIte] at h
  rcases hr : p.atHand.readOn #[] input with ⟨e | ⟨a, got, ended⟩, rest⟩
  · rw [hr] at h
    cases h
    obtain ⟨_, _, same, _⟩ | ⟨-, beyond⟩ := Attempt.reach_of_readOn hr
    · cases same
    · exact .inr ⟨by simp, beyond⟩
  · rw [hr] at h
    cases h
    obtain ⟨b, got', same, within⟩ | ⟨more, beyond⟩ := Attempt.reach_of_readOn hr
    · cases same
      exact .inl ⟨_, _, rfl, rfl, within⟩
    · refine .inr ⟨fun best q same => ?_, beyond⟩
      cases same
      cases ended with
      | true => rfl
      | false => exact absurd rfl (more a got)

theorem reach_of_refill (reading : q.ended = false) {o : Except ReadError Pass}
    (h : q.refill middle = (o, left)) :
    (∃ r, o = .ok r ∧ r.ended = false ∧ r.buffer ≠ [] ∧ middle.Within left) ∨
      (∀ r, o = .ok r → r.ended = true) ∧ middle.Beyond left := by
  rw [refill] at h
  split at h
  · split at h
    · next hr =>
      cases h
      exact .inl ⟨_, rfl, reading, List.cons_ne_nil _ _, Input.within_of_read hr⟩
    · next hr =>
      cases h
      refine .inr ⟨fun r same => ?_, Input.beyond_of_read hr (by simp)⟩
      cases same
      rfl
    · next hr =>
      cases h
      exact .inr ⟨by simp, Input.beyond_of_read hr (by simp)⟩
  · next some =>
    cases h
    refine .inl ⟨q, rfl, reading, ?_, rfl⟩
    intro none
    simp [none, reading] at some

theorem refill_of_ended (ended : q.ended = true) (input : Input) :
    q.refill input = (.ok q, input) := by
  simp [refill, ended]

theorem survey_of_ended (ended : p.ended = true) {o : Except ReadError (Option Candidate × Pass)}
    (h : p.survey input = (o, left)) :
    left = input ∧ ∃ best q, o = .ok (best, q) ∧ q.ended = true := by
  have surveyed : p.survey input =
      (.ok (p.atHand.close.best, { p with fresh := false }), input) := by
    simp [survey, ended]
  rw [h] at surveyed
  cases surveyed
  exact ⟨rfl, _, _, rfl, ended⟩

/-- A pass that has met the end does not read, and it knows the end behind a match as well. -/
theorem still_of_scan (ended : p.ended = true) (input : Input) :
    (p.scan input).2 = input ∧ ∀ m q, (p.scan input).1 = .found m q → q.ended = true := by
  induction p, input using scan.induct with
  | case1 p input e left hs =>
    obtain ⟨-, best, q, same, -⟩ := survey_of_ended ended hs
    cases same
  | case2 p input best q left hs =>
    obtain ⟨same, _, _, known, ended⟩ := survey_of_ended ended hs
    cases known
    rw [scan_of_found hs]
    refine ⟨same, fun m r found => ?_⟩
    cases found
    exact ended
  | case3 p input q middle hs e left hr =>
    obtain ⟨-, best, q', same, ended⟩ := survey_of_ended ended hs
    cases same
    rw [refill_of_ended ended] at hr
    cases hr
  | case4 p input q middle hs r left hr nothing =>
    obtain ⟨same, best, q', known, ended⟩ := survey_of_ended ended hs
    cases known
    have kept := hr
    rw [refill_of_ended ended] at kept
    cases kept
    rw [scan_of_exhausted hs hr nothing]
    exact ⟨same, by simp⟩
  | case5 p input q middle hs r left hr c cs ahead _ ih =>
    obtain ⟨same, best, q', known, ended⟩ := survey_of_ended ended hs
    cases known
    have kept := hr
    rw [refill_of_ended ended] at kept
    cases kept
    rw [scan_of_skip hs hr ahead]
    obtain ⟨still, later⟩ := ih ended
    exact ⟨still.trans same, later⟩

theorem scan_of_ended (ended : p.ended = true) (input : Input) : (p.scan input).2 = input :=
  (still_of_scan ended input).1

theorem ended_of_scan (ended : p.ended = true) {m : Match}
    (h : p.scan input = (.found m q, left)) : q.ended = true :=
  (still_of_scan ended input).2 m q (congrArg Prod.fst h)

/-- A scan that does not meet the end finds a match. -/
theorem reach_of_scan (reading : p.ended = false) (input : Input) :
    (∃ m q left, p.scan input = (.found m q, left) ∧ q.ended = false ∧ input.Within left) ∨
      input.Beyond (p.scan input).2 := by
  induction p, input using scan.induct with
  | case1 p input e left hs =>
    obtain ⟨best, q, same, -⟩ | ⟨-, beyond⟩ := reach_of_survey reading hs
    · cases same
    · rw [scan_of_failed_survey hs]
      exact .inr beyond
  | case2 p input best q left hs =>
    rw [scan_of_found hs]
    obtain ⟨best', q', same, reading, within⟩ | ⟨-, beyond⟩ := reach_of_survey reading hs
    · cases same
      exact .inl ⟨_, _, _, rfl, reading, within⟩
    · exact .inr beyond
  | case3 p input q middle hs e left hr =>
    obtain ⟨best', q', same, reading, within⟩ | ⟨ended, -⟩ := reach_of_survey reading hs
    · cases same
      obtain ⟨r, same, -⟩ | ⟨-, beyond⟩ := reach_of_refill reading hr
      · cases same
      · rw [scan_of_failed_refill hs hr]
        exact .inr (within.beyond beyond)
    · rw [refill_of_ended (ended _ _ rfl)] at hr
      cases hr
  | case4 p input q middle hs r left hr nothing =>
    rw [scan_of_exhausted hs hr nothing]
    obtain ⟨best', q', same, reading, within⟩ | ⟨ended, beyond⟩ := reach_of_survey reading hs
    · cases same
      obtain ⟨r', same, -, some, -⟩ | ⟨-, beyond⟩ := reach_of_refill reading hr
      · cases same
        exact absurd nothing some
      · exact .inr (within.beyond beyond)
    · rw [refill_of_ended (ended _ _ rfl)] at hr
      cases hr
      exact .inr beyond
  | case5 p input q middle hs r left hr c cs ahead _ ih =>
    rw [scan_of_skip hs hr ahead]
    obtain ⟨best', q', same, reading, within⟩ | ⟨ended, beyond⟩ := reach_of_survey reading hs
    · cases same
      obtain ⟨r', same, reading, -, within'⟩ | ⟨ended, beyond⟩ := reach_of_refill reading hr
      · cases same
        obtain ⟨m, n, last, scanned, reading, within''⟩ | beyond := ih reading
        · exact .inl ⟨m, n, last, scanned, reading, (within.trans within').trans within''⟩
        · exact .inr ((within.trans within').beyond beyond)
      · have known := ended r rfl
        have same := scan_of_ended (p := { r with buffer := cs, pos := r.pos.visit c }) known left
        exact .inr (same.symm ▸ within.beyond beyond)
    · have known := ended _ _ rfl
      rw [refill_of_ended known] at hr
      cases hr
      have same := scan_of_ended (p := { q with buffer := cs, pos := q.pos.visit c }) known middle
      exact .inr (same.symm ▸ beyond)

end Pass

namespace Scanner

variable {s t : Scanner} {p q : Pass} {around : List Pass} {input left : Input}

/-- The outermost pass is open, and has not met the end of the input. -/
def Reading (s : Scanner) : Prop := ∃ p, s.passes.getLast? = some p ∧ p.ended = false

theorem reading_start (family : Family Automaton) (input : Input) :
    (start family input).Reading :=
  ⟨_, rfl, rfl⟩

theorem overran_iff : Channel.overran s t = true ↔ s.input.Beyond t.input := by
  rw [Channel.overran, decide_eq_true_iff]
  rfl

theorem overran_of_within (h : s.input.Within t.input) : Channel.overran s t = false := by
  rw [Input.Within] at h
  rw [Channel.overran, decide_eq_false_iff_not]
  omega

/-- Whatever a call comes to, it leaves the input where its scan has come to. -/
theorem input_of_next {o : Outcome} (scanned : scanInnermost p around input = (o, left)) :
    (next ⟨input, p :: around⟩ false).2.input = left := by
  cases o with
  | found m q => rw [next_of_found scanned]
  | exhausted pos => rw [next_of_exhausted scanned]
  | failed e pos => rw [next_of_failed scanned]

theorem reading_append (inner : List Pass) (h : Reading ⟨input, p :: around⟩) :
    Reading ⟨input, inner ++ p :: around⟩ := by
  obtain ⟨outer, last, reading⟩ := h
  exact ⟨outer, by simpa [List.getLast?_append] using last, reading⟩

/-- A call either reads on behind the characters known, or it hands out an item, and the outermost
pass is still open. -/
theorem Reading.next (h : s.Reading) :
    Channel.overran s (s.next false).2 = true ∨
      ∃ item t, s.next false = (some item, t) ∧ Channel.overran s t = false ∧ t.Reading := by
  obtain ⟨input, passes⟩ := s
  obtain ⟨outer, last, reading⟩ := h
  match passes with
  | [] => cases last
  | [p] =>
    obtain rfl : p = outer := by simpa using last
    have own : scanInnermost p [] input = p.scan input := by simp [scanInnermost]
    obtain ⟨m, q, left, scanned, open_end, within⟩ | beyond := Pass.reach_of_scan reading input
    · rw [← own] at scanned
      refine .inr ⟨_, _, next_of_found scanned, overran_of_within within, ?_⟩
      exact reading_append (opened q m) ⟨q, rfl, open_end⟩
    · left
      rw [overran_iff, input_of_next (own.trans rfl)]
      exact beyond
  | p :: r :: around =>
    right
    have outside : Reading ⟨input, r :: around⟩ := ⟨outer, by simpa using last, reading⟩
    rcases scanned : scanInnermost p (r :: around) input with ⟨⟨m, q⟩ | pos | ⟨e, pos⟩, left⟩ <;>
      obtain rfl := input_of_scanInnermost scanned
    · refine ⟨_, _, next_of_found scanned, overran_of_within rfl, ?_⟩
      exact reading_append (opened q m) (reading_append [q] outside)
    · exact ⟨_, _, next_of_exhausted scanned, overran_of_within rfl, outside⟩
    · have failure := Pass.failure_of_scan_failed p.agrees_empty (scan_of_scanInnermost scanned)
      cases failure

/-- If its input breaks down, a scanner hands out some items before. -/
theorem exists_breaks (h : s.Reading) : ∃ items, Channel.Breaks s items := by
  induction supplied : s.supply using Nat.strongRecOn generalizing s with
  | ind n ih =>
    obtain down | ⟨item, t, called, within, reading⟩ := h.next
    · exact ⟨[], .down down⟩
    · have less := supply_lt_of_item called
      obtain ⟨items, breaks⟩ := ih t.supply (by omega) reading rfl
      exact ⟨item :: items, .item called within breaks⟩

end Scanner

end Munch
