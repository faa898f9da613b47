import Mathlib.Order.Bounds.Basic
import Mathlib.Order.Nat
import Munch.Proofs.Delivery

/-!
# How far a scanner reads ahead

An attempt looks at the characters ahead up to the one that ends its last run, or up to the end of
the text if a run is live there. What it has to look at is a matter of the language alone, and it
reads no character that an attempt before it has looked at. So the reads of a run are the most that
any attempt of the outermost pass needs: a character beyond is not asked for, nothing is read
twice, and the end of the text is met at most once. Inner passes own their text.

One survey raises the reads to what its attempt needs (`Pass.At.survey`). From it follow in turn a
scan, a call and a run, each for the attempts made on the way.

## Main definitions

* `Family.Needs`: how far an attempt at an offset has to read.
* `Scanner.TriesAt`: the outermost pass makes an attempt at an offset in some calls.
* `Scanner.isGreatest_reads`: the reads of a run are the greatest need of its attempts.
-/

namespace Munch

/-! ## What an attempt needs -/

namespace Family

variable {f : Family Automaton} {u v : List Char}

/-- Before the first character every member is running. -/
theorem survives_nil (members : f.members ≠ []) (fresh : Bool) : f.Survives fresh [] := by
  obtain ⟨a, member⟩ := List.exists_mem_of_ne_nil _ members
  exact ⟨a, member, 0, a.zero_mem_starts fresh, rfl⟩

/-- What an attempt at offset `o` needs of a text, counted from the beginning of the text: the
characters up to the one that ends the last run, or all of them and the end of the text. Start
links are open to the attempt at the beginning. -/
inductive Needs (f : Family Automaton) (text : List Char) (o : Nat) : Nat → Prop where
  | dies {k : Nat} :
    IsLeast {k | o + k ≤ text.length ∧ ¬f.Survives (o == 0) ((text.drop o).take k)} k →
    Needs f text o (o + k)
  | lives : f.Survives (o == 0) (text.drop o) → Needs f text o (text.length + 1)

variable {text : List Char} {o m n : Nat}

/-- What attempts at some offsets need. -/
def needed (f : Family Automaton) (text : List Char) (offsets : Set Nat) : Set Nat :=
  {m | ∃ o ∈ offsets, f.Needs text o m}

/-- An attempt does not both end its runs and meet the end with a run live. -/
theorem Needs.unique (h : f.Needs text o m) (h' : f.Needs text o n) : m = n := by
  have never : ∀ k, ¬f.Survives (o == 0) ((text.drop o).take k) →
      ¬f.Survives (o == 0) (text.drop o) :=
    fun k dead survives => dead (survives.of_prefix (List.take_prefix k _))
  cases h with
  | dies least =>
    cases h' with
    | dies least' => rw [least.unique least']
    | lives survives => exact absurd survives (never _ least.1.2)
  | lives survives =>
    cases h' with
    | dies least => exact absurd survives (never _ least.1.2)
    | lives => rfl

/-- Every attempt inside the text has a need. -/
theorem exists_needs (f : Family Automaton) (le : o ≤ text.length) : ∃ m, f.Needs text o m := by
  classical
  by_cases survives : f.Survives (o == 0) (text.drop o)
  · exact ⟨_, .lives survives⟩
  · have some : ∃ k, o + k ≤ text.length ∧ ¬f.Survives (o == 0) ((text.drop o).take k) := by
      refine ⟨text.length - o, by omega, ?_⟩
      rwa [List.take_of_length_le (by simp)]
    exact ⟨_, .dies (Nat.isLeast_find some)⟩

theorem Needs.le (h : f.Needs text o m) : m ≤ text.length + 1 := by
  cases h with
  | dies least => exact Nat.le_succ_of_le least.1.1
  | lives => exact Nat.le_refl _

/-- An attempt looks at what is ahead of it. -/
theorem Needs.lt (h : f.Needs text o m) (members : f.members ≠ []) (le : o ≤ text.length) :
    o < m := by
  cases h with
  | @dies k least =>
    by_cases zero : k = 0
    · subst zero
      exact absurd (survives_nil members _) least.1.2
    · omega
  | lives => omega

/-- The last run ends with a character ahead. -/
theorem needs_of_dies {c : Char} (le : o ≤ text.length) (split : text.drop o = u ++ c :: v)
    (survives : f.Survives (o == 0) u) (dead : ¬f.Survives (o == 0) (u ++ [c])) :
    f.Needs text o (o + (u.length + 1)) := by
  have length := congrArg List.length split
  rw [List.length_append, List.length_cons, List.length_drop] at length
  refine .dies ⟨⟨by omega, ?_⟩, ?_⟩
  · rwa [split, List.append_cons, List.take_left' (by simp)]
  · rintro k ⟨-, ends⟩
    by_contra shorter
    rw [split, List.take_append_of_le_length (by omega)] at ends
    exact ends (survives.of_prefix (List.take_prefix k u))

/-- A need is no more than a part of what is ahead at which no run is live. -/
theorem Needs.le_of_dead (h : f.Needs text o m) (le : o ≤ text.length)
    (split : text.drop o = u ++ v) (dead : ¬f.Survives (o == 0) u) : m ≤ o + u.length := by
  have length := congrArg List.length split
  rw [List.length_append, List.length_drop] at length
  cases h with
  | dies least =>
    have ends : ¬f.Survives (o == 0) ((text.drop o).take u.length) := by
      rwa [split, List.take_left]
    exact Nat.add_le_add_left (least.2 ⟨by omega, ends⟩) o
  | lives survives =>
    rw [split] at survives
    exact absurd survives.of_append dead

theorem needed_union (f : Family Automaton) (text : List Char) (a b : Set Nat) :
    f.needed text (a ∪ b) = f.needed text a ∪ f.needed text b := by
  ext m
  simp [needed, or_and_right, exists_or]

theorem Needs.needed_singleton (h : f.Needs text o m) : f.needed text {o} = {m} := by
  ext n
  simp only [needed, Set.mem_singleton_iff, exists_eq_left, Set.mem_ofPred_eq]
  constructor
  · intro needs
    exact needs.unique h
  · rintro rfl
    exact h

end Family

/-- A greatest element may be sought in two steps, the second of which begins with the result of
the first. -/
theorem isGreatest_insert_union {A B : Set Nat} {a b c : Nat} (h : IsGreatest (insert a A) b)
    (h' : IsGreatest (insert b B) c) : IsGreatest (insert a (A ∪ B)) c := by
  have le : b ≤ c := h'.2 (Set.mem_insert b B)
  have both := h.union h'
  rw [max_eq_right le] at both
  rwa [Set.union_insert, Set.insert_eq_of_mem (.inl h.1), Set.insert_union] at both

/-! ## Reading on -/

namespace Input

/-- An input at some place of a text: what it has still to give is the text without as many
characters as were read, and the end was met at most once. -/
structure Over (text : List Char) (i : Input) : Prop where
  rest : i.rest = text.drop i.reads
  failure : i.failure = none
  le : i.reads ≤ text.length + 1

/-- Characters read bring the input to a later place. -/
theorem Over.of_split {text u : List Char} {i j : Input} (h : i.Over text) (leads : i.Leads j)
    (split : i.rest = u ++ j.rest) (reads : j.reads = i.reads + u.length) : j.Over text := by
  have le := h.le
  have length := congrArg List.length split
  rw [h.rest, List.length_drop, List.length_append] at length
  refine ⟨?_, leads.failure.trans h.failure, by omega⟩
  rw [reads, ← List.drop_drop, ← h.rest, split, List.drop_left]

theorem over_ofString (text : String) : (ofString text).Over text.toList where
  rest := rfl
  failure := rfl
  le := Nat.zero_le _

end Input

namespace Attempt

variable {f : Family Automaton} {fresh : Bool} {w : List Char} {a b : Attempt}
  {read got : Array Char} {input left : Input}

/-- How far reading on goes behind a text. -/
inductive Reaches (f : Family Automaton) (fresh : Bool) (w : List Char) (input left : Input) :
    Bool → Prop where
  /-- No run is live, and nothing is read. -/
  | dead : ¬f.Survives fresh w → left = input → Reaches f fresh w input left false
  /-- The last character read ends the last run. -/
  | dies {u : List Char} {c : Char} : input.rest = u ++ c :: left.rest →
    left.reads = input.reads + (u.length + 1) → f.Survives fresh (w ++ u) →
    ¬f.Survives fresh (w ++ u ++ [c]) → Reaches f fresh w input left false
  /-- A run is live behind all characters, and the end is met. -/
  | lives : left.rest = [] → left.reads = input.reads + input.rest.length + 1 →
    f.Survives fresh (w ++ input.rest) → Reaches f fresh w input left true

theorem Behind.reaches (h : Behind f fresh w a) {ended : Bool}
    (result : a.readOn read input = (.ok (b, got, ended), left)) :
    Reaches f fresh w input left ended := by
  induction a, read, input using readOn.induct generalizing w with
  | case1 a read input dead =>
    rw [readOn_of_dead dead] at result
    cases result
    exact .dead (by rw [h.survives_iff]; simpa using dead) rfl
  | case2 a read input live c next hr _ ih =>
    rw [readOn_of_char live hr] at result
    have rest := Input.rest_of_read_some hr
    have reads := Input.reads_of_read hr
    have running : f.Survives fresh w := h.survives_iff.2 (by simpa using live)
    cases ih (h.take c) result with
    | dead dead same =>
      subst same
      exact .dies (u := []) rest reads (by simpa using running) (by simpa using dead)
    | @dies u d split reads' survives dead =>
      refine .dies (u := c :: u) (c := d) (by rw [rest, split]; rfl) ?_ (by simpa using survives)
        (by simpa using dead)
      rw [reads', reads, List.length_cons]
      omega
    | lives nothing reads' survives =>
      refine .lives nothing ?_ (by simpa [rest] using survives)
      rw [reads', reads, rest, List.length_cons]
      omega
  | case3 a read input live next hr =>
    rw [readOn_of_end live hr] at result
    cases result
    obtain ⟨nothing, nothing_left⟩ := Input.rest_of_read_none hr
    refine .lives nothing_left ?_ ?_
    · rw [Input.reads_of_read hr, nothing]
      rfl
    · rw [nothing, List.append_nil, h.survives_iff]
      simpa using live
  | case4 a read input live e next hr =>
    rw [readOn_of_failure live hr] at result
    cases result

end Attempt

/-! ## Attempts of the outermost pass -/

namespace Pass

variable {f : Family Automaton} {text : List Char} {o m : Nat} {fresh : Bool} {p q : Pass}
  {input left : Input}

/-- A pass over a text is at an offset of it, with start links open or not, and knows whether the
end was met. -/
structure At (f : Family Automaton) (text : List Char) (o : Nat) (fresh : Bool) (p : Pass)
    (input : Input) : Prop where
  family : p.family = f
  fresh : p.fresh = fresh
  le : o ≤ text.length
  ahead : p.ahead input = text.drop o
  onText : input.Over text
  ended : p.ended = true ↔ text.length < input.reads

theorem At.agrees (h : p.At f text o fresh input) : p.Agrees input := by
  intro ended
  refine ⟨?_, h.onText.failure⟩
  rw [h.onText.rest]
  exact List.drop_of_length_le (Nat.le_of_lt (h.ended.1 ended))

/-- The buffer reaches from the offset to the place of the input. -/
theorem At.length_buffer (h : p.At f text o fresh input) (reading : p.ended = false) :
    o + p.buffer.length = input.reads := by
  have le := h.le
  have ahead := congrArg List.length h.ahead
  rw [Pass.ahead, List.length_append, h.onText.rest, List.length_drop, List.length_drop] at ahead
  have := h.ended.not.1 (by simp [reading])
  omega

/-- The attempt over the buffer looks at no more of it than its runs do. -/
theorem At.behind (h : p.At f text o (o == 0) input) : ∃ u v, p.buffer = u ++ v ∧
    Attempt.Behind f (o == 0) u p.atHand ∧ (v = [] ∨ p.atHand.live = []) := by
  have start := Attempt.behind_start p.family p.fresh
  obtain ⟨u, v, split, behind, rest⟩ := start.feed p.buffer
  rw [List.nil_append, h.family, h.fresh] at behind
  exact ⟨u, v, split, by rwa [atHand, h.family, h.fresh], rest⟩

/-- Reading on behind the buffer stops where the need of the attempt is met. -/
theorem At.reach (h : p.At f text o (o == 0) input) (reading : p.ended = false)
    (needs : f.Needs text o m) {a : Attempt} {got : Array Char} {ended : Bool}
    (result : p.atHand.readOn #[] input = (.ok (a, got, ended), left)) :
    left.Over text ∧ (ended = true ↔ text.length < left.reads) ∧
      left.reads = max input.reads m := by
  have le := h.le
  have place := h.length_buffer reading
  have inside : ¬text.length < input.reads := h.ended.not.1 (by simp [reading])
  have ahead : text.drop o = p.buffer ++ input.rest := h.ahead.symm
  have leads := Attempt.leads_of_readOn result
  have length : input.rest.length = text.length - input.reads := by
    rw [h.onText.rest, List.length_drop]
  -- Either the runs are live behind the whole buffer, or they died inside it.
  obtain ⟨u, v, split, behind, rfl | died⟩ := h.behind
  · rw [List.append_nil] at split
    rw [← split] at behind
    cases behind.reaches result with
    | dead dead same =>
      subst same
      have := needs.le_of_dead le ahead dead
      exact ⟨h.onText, by simpa using Nat.le_of_not_lt inside, by omega⟩
    | @dies u c rest reads survives dead =>
      have split : text.drop o = (p.buffer ++ u) ++ c :: left.rest := by
        rw [ahead, rest, List.append_assoc]
      have met := needs.unique (Family.needs_of_dies le split survives dead)
      have onText : left.Over text := by
        refine h.onText.of_split (u := u ++ [c]) leads (by simpa using rest) ?_
        rw [reads, List.length_append, List.length_singleton]
      rw [rest, List.length_append, List.length_cons] at length
      rw [List.length_append] at met
      exact ⟨onText, by simp; omega, by omega⟩
    | lives nothing reads survives =>
      rw [← ahead] at survives
      have met := needs.unique (.lives survives)
      refine ⟨⟨?_, leads.failure.trans h.onText.failure, by omega⟩, by simp; omega, by omega⟩
      rw [nothing, List.drop_of_length_le (by omega)]
  · rw [Attempt.readOn_of_dead (List.isEmpty_iff.2 died)] at result
    cases result
    have dead : ¬f.Survives (o == 0) u := by
      rw [behind.survives_iff]
      exact not_not.2 died
    have := needs.le_of_dead le (by rw [ahead, split, List.append_assoc]) dead
    rw [split, List.length_append] at place
    exact ⟨h.onText, by simpa using Nat.le_of_not_lt inside, by omega⟩

/-- A survey reads on to what its attempt needs, if that was not read before. -/
theorem At.survey (h : p.At f text o (o == 0) input) (needs : f.Needs text o m)
    {r : Except ReadError (Option Candidate × Pass)} (surveyed : p.survey input = (r, left)) :
    ∃ best q, r = .ok (best, q) ∧ q.At f text o false left ∧ left.reads = max input.reads m := by
  obtain e | ⟨best, q⟩ := r
  · have failure := failure_of_survey_error surveyed
    rw [h.onText.failure] at failure
    cases failure
  obtain ⟨family, -, fresh⟩ := family_of_survey surveyed
  have ahead : q.ahead left = text.drop o := (survey_conserves surveyed).trans h.ahead
  have reads : left.Over text ∧ (q.ended = true ↔ text.length < left.reads) ∧
      left.reads = max input.reads m := by
    rw [Pass.survey] at surveyed
    split at surveyed
    · next ended =>
      cases surveyed
      have := needs.le
      have := h.ended.1 ended
      exact ⟨h.onText, h.ended, by omega⟩
    · next reading =>
      split at surveyed
      · next result =>
        cases surveyed
        exact h.reach (by simpa using reading) needs result
      · cases surveyed
  obtain ⟨onText, ended, reads⟩ := reads
  exact ⟨best, q, rfl, ⟨family.trans h.family, fresh, h.le, ahead, onText, ended⟩, reads⟩

/-- Behind a survey a character is buffered, or it is known that none follows. -/
theorem At.refill (h : q.At f text o false input) (looked : o < input.reads) :
    q.refill input = (.ok q, input) := by
  rw [Pass.refill, if_neg]
  intro nothing
  obtain ⟨empty, reading⟩ : q.buffer = [] ∧ q.ended = false := by simpa using nothing
  have place := h.length_buffer reading
  rw [empty, List.length_nil] at place
  omega

/-- A pass that has consumed part of its buffer is that much further. -/
theorem At.drop (h : q.At f text o false input) {n : Nat} (le : n ≤ q.buffer.length)
    (pos : Position) :
    { q with buffer := q.buffer.drop n, pos }.At f text (o + n) false input := by
  have length := congrArg List.length h.ahead
  rw [Pass.ahead, List.length_append, List.length_drop] at length
  have := h.le
  refine ⟨h.family, h.fresh, by omega, ?_, h.onText, h.ended⟩
  rw [← List.drop_drop, ← h.ahead, Pass.ahead, Pass.ahead, List.drop_append_of_le_length le]

/-- A scan makes an attempt at an offset of a text: at once, or behind characters it skips. -/
inductive TriesAt (text : List Char) : Pass → Input → Nat → Prop where
  | here {p : Pass} {input : Input} {o : Nat} : o ≤ text.length → p.ahead input = text.drop o →
    TriesAt text p input o
  | skip {p q : Pass} {input left : Input} {o : Nat} : p.attempt input = (.inr q, left) →
    TriesAt text q left o → TriesAt text p input o

theorem TriesAt.le (h : p.TriesAt text input o) : o ≤ text.length := by
  induction h with
  | here le => exact le
  | skip _ _ ih => exact ih

theorem At.here (h : p.At f text o fresh input) {n : Nat} (le : n ≤ text.length)
    (ahead : p.ahead input = text.drop n) : n = o := by
  have length := congrArg List.length (h.ahead.symm.trans ahead)
  have := h.le
  rw [List.length_drop, List.length_drop] at length
  omega

theorem At.offsets_of_ending (h : p.At f text o fresh input) {outcome : Outcome}
    (attempted : p.attempt input = (.inl outcome, left)) : {n | p.TriesAt text input n} = {o} := by
  ext n
  constructor
  · rintro (⟨le, ahead⟩ | ⟨skipped, -⟩)
    · exact h.here le ahead
    · rw [attempted] at skipped
      cases skipped
  · rintro rfl
    exact .here h.le h.ahead

theorem At.offsets_of_skipping (h : p.At f text o fresh input)
    (attempted : p.attempt input = (.inr q, left)) :
    {n | p.TriesAt text input n} = {o} ∪ {n | q.TriesAt text left n} := by
  ext n
  constructor
  · rintro (⟨le, ahead⟩ | ⟨skipped, later⟩)
    · exact .inl (h.here le ahead)
    · rw [attempted] at skipped
      cases skipped
      exact .inr later
  · rintro (rfl | later)
    · exact .here h.le h.ahead
    · exact .skip attempted later

/-- An attempt leaves the pass further on, and has read what it needs. -/
theorem At.attempt (h : p.At f text o (o == 0) input) (members : f.members ≠ [])
    (needs : f.Needs text o m) {r : Outcome ⊕ Pass} (attempted : p.attempt input = (r, left)) :
    left.Over text ∧ left.reads = max input.reads m ∧
      (∀ found q, r = .inl (.found found q) → ∃ n, q.At f text n (n == 0) left) ∧
      ∀ q, r = .inr q → q.At f text (o + 1) false left := by
  rw [Pass.attempt] at attempted
  rcases surveyed : p.survey input with ⟨result, middle⟩
  obtain ⟨best, q, rfl, place, reads⟩ := h.survey needs surveyed
  have looked : o < middle.reads := by
    have := needs.lt members h.le
    omega
  rw [surveyed] at attempted
  cases best with
  | some best =>
    obtain ⟨pos, le⟩ := within_of_survey surveyed best rfl
    cases attempted
    refine ⟨place.onText, reads, ?_, by simp⟩
    rintro found next ⟨⟩
    refine ⟨o + best.length, ?_⟩
    rw [beq_false_of_ne (by omega)]
    exact place.drop le _
  | none =>
    simp only [place.refill looked] at attempted
    cases buffered : q.buffer with
    | nil =>
      rw [buffered] at attempted
      cases attempted
      exact ⟨place.onText, reads, by simp, by simp⟩
    | cons c cs =>
      rw [buffered] at attempted
      cases attempted
      refine ⟨place.onText, reads, by simp, ?_⟩
      rintro next ⟨⟩
      have dropped := place.drop (n := 1) (by simp [buffered]) (q.pos.visit c)
      rwa [buffered] at dropped

/-- A scan reads what its attempts need, if that was not read before. -/
theorem At.scan (h : p.At f text o (o == 0) input) (members : f.members ≠ []) :
    (p.scan input).2.Over text ∧
      IsGreatest (insert input.reads (f.needed text {n | p.TriesAt text input n}))
        (p.scan input).2.reads ∧
      ∀ found q, (p.scan input).1 = .found found q →
        ∃ n, q.At f text n (n == 0) (p.scan input).2 := by
  have agrees := h.agrees
  -- An attempt that skips a character leaves the rest of the scan one offset further, with what it
  -- needed already read.
  induction p, input, agrees using scan_induction generalizing o with
  | ending p input agrees outcome left attempted =>
    obtain ⟨m, needs⟩ := f.exists_needs h.le
    obtain ⟨onText, reads, found, -⟩ := h.attempt members needs attempted
    rw [scan_of_ending attempted, h.offsets_of_ending attempted, needs.needed_singleton, reads]
    refine ⟨onText, isGreatest_pair, ?_⟩
    rintro match_ q rfl
    exact found match_ q rfl
  | skip p input agrees q left agreed attempted ih =>
    obtain ⟨m, needs⟩ := f.exists_needs h.le
    obtain ⟨onText, reads, -, skipped⟩ := h.attempt members needs attempted
    obtain ⟨onText', greatest, found⟩ := ih (skipped q rfl)
    rw [scan_of_skipping attempted, h.offsets_of_skipping attempted, Family.needed_union,
      needs.needed_singleton]
    refine ⟨onText', isGreatest_insert_union ?_ greatest, found⟩
    rw [reads]
    exact isGreatest_pair

end Pass

/-! ## Calls and runs -/

namespace Scanner

variable {f : Family Automaton} {text : List Char} {s : Scanner} {p q : Pass}
  {around : List Pass} {input left : Input} {o : Nat} {schedule : List Bool}

/-- The outermost pass makes an attempt at an offset of a text, in calls under a schedule. -/
inductive TriesAt (text : List Char) : Scanner → List Bool → Nat → Prop where
  | call {s : Scanner} {p : Pass} {stop : Bool} {schedule : List Bool} {o : Nat} :
    s.passes = [p] → p.TriesAt text s.input o → TriesAt text s (stop :: schedule) o
  | later {s : Scanner} {stop : Bool} {schedule : List Bool} {o : Nat} :
    TriesAt text (s.next stop).2 schedule o → TriesAt text s (stop :: schedule) o

/-- A scanner over a text: the outermost pass is at some offset, and the passes inside it have met
the end of theirs. -/
structure Over (f : Family Automaton) (text : List Char) (s : Scanner) : Prop where
  input : s.input.Over text
  outermost : ∀ p ∈ s.passes.getLast?, ∃ o, p.At f text o (o == 0) s.input
  inner : ∀ p ∈ s.passes.dropLast, p.ended = true

theorem over_start (family : Family Automaton) (text : String) :
    (start family (.ofString text)).Over family text.toList where
  input := Input.over_ofString text
  outermost p hp := by
    obtain rfl : Pass.outer family = p := by simpa [start] using hp
    exact ⟨0, rfl, rfl, Nat.zero_le _, rfl, Input.over_ofString text, by simp [Pass.outer, start,
      Input.ofString]⟩
  inner p hp := by simp [start] at hp

theorem ended_of_mem_opened {m : Match} (h : p ∈ opened q m) : p.ended = true := by
  obtain ⟨inner, -, rfl⟩ := List.mem_map.1 h
  rfl

theorem Over.append {inner : List Pass} (h : Over f text ⟨input, p :: around⟩)
    (ended : ∀ q ∈ inner, q.ended = true) : Over f text ⟨input, inner ++ p :: around⟩ where
  input := h.input
  outermost q hq := h.outermost q (by simpa [List.getLast?_append] using hq)
  inner q hq := by
    rw [List.dropLast_append_of_ne_nil (List.cons_ne_nil p around), List.mem_append] at hq
    exact hq.elim (ended q) (h.inner q)

/-- A scanner whose passes are closed. -/
theorem over_closed (h : input.Over text) : Over f text ⟨input, []⟩ where
  input := h
  outermost := nofun
  inner := nofun

/-- A request to stop closes the passes and leaves the reads as they are. -/
theorem Over.of_next (h : Over f text (s.next false).2) (stop : Bool) :
    Over f text (s.next stop).2 := by
  cases stop with
  | false => exact h
  | true =>
    have input := h.input
    rw [← input_next s true] at input
    have closed := passes_next_true s
    generalize (s.next true).2 = t at *
    obtain ⟨left, _⟩ := t
    cases closed
    exact over_closed input

/-- A call in which an inner pass is the innermost leaves the input alone. -/
theorem Over.next_inner {p r : Pass} (h : Over f text ⟨input, p :: r :: around⟩) :
    Over f text (next ⟨input, p :: r :: around⟩ false).2 ∧
      (next ⟨input, p :: r :: around⟩ false).2.input = input := by
  have outside : Over f text ⟨input, r :: around⟩ :=
    ⟨h.input, by simpa using h.outermost, fun r hr => h.inner r (List.mem_cons_of_mem p hr)⟩
  rcases scanned : scanInnermost p (r :: around) input with ⟨⟨m, q⟩ | pos | ⟨e, pos⟩, left⟩ <;>
    obtain rfl := input_of_scanInnermost scanned
  · have ended := Pass.ended_of_scan (h.inner p List.mem_cons_self)
      (scan_of_scanInnermost scanned)
    have behind : Over f text ⟨left, [q] ++ r :: around⟩ := by
      apply outside.append
      simpa using ended
    rw [next_of_found scanned]
    exact ⟨behind.append fun _ => ended_of_mem_opened, rfl⟩
  · rw [next_of_exhausted scanned]
    exact ⟨outside, rfl⟩
  · rw [next_of_failed scanned]
    exact ⟨over_closed h.input, rfl⟩

/-- A call in which the outermost pass is the innermost is a scan of it. -/
theorem Over.next_outermost (h : Over f text ⟨input, [p]⟩) (members : f.members ≠ []) :
    Over f text (next ⟨input, [p]⟩ false).2 ∧
      IsGreatest (insert input.reads (f.needed text {o | p.TriesAt text input o}))
        (next ⟨input, [p]⟩ false).2.input.reads := by
  obtain ⟨o, place⟩ := h.outermost p rfl
  obtain ⟨onText, greatest, found⟩ := place.scan members
  have own : scanInnermost p [] input = p.scan input := rfl
  rcases scanned : p.scan input with ⟨⟨m, q⟩ | pos | ⟨e, pos⟩, left⟩ <;>
    rw [scanned] at own onText greatest found
  · obtain ⟨n, behind⟩ := found m q rfl
    have outermost : Over f text ⟨left, [q]⟩ :=
      ⟨onText, by simpa using ⟨n, behind⟩, by simp⟩
    rw [next_of_found own]
    exact ⟨outermost.append fun _ => ended_of_mem_opened, greatest⟩
  · rw [next_of_exhausted own]
    exact ⟨over_closed onText, greatest⟩
  · rw [next_of_failed own]
    exact ⟨over_closed onText, greatest⟩

theorem offsets_nil (s : Scanner) : {o | s.TriesAt text [] o} = ∅ := by
  ext o
  simp only [Set.mem_ofPred_eq, Set.mem_empty_iff_false, iff_false]
  nofun

/-- Attempts of the first call, and of the calls behind it. -/
theorem offsets_cons (s : Scanner) (stop : Bool) (schedule : List Bool) :
    {o | s.TriesAt text (stop :: schedule) o} =
      {o | ∃ p, s.passes = [p] ∧ p.TriesAt text s.input o} ∪
        {o | (s.next stop).2.TriesAt text schedule o} := by
  ext o
  constructor
  · rintro (⟨outermost, tries⟩ | later)
    · exact .inl ⟨_, outermost, tries⟩
    · exact .inr later
  · rintro (⟨p, outermost, tries⟩ | later)
    · exact .call outermost tries
    · exact .later later

/-- A call reads what the attempts of the outermost pass in it need, if that was not read
before. -/
theorem Over.next (h : s.Over f text) (members : f.members ≠ []) (stop : Bool) :
    (s.next stop).2.Over f text ∧
      IsGreatest (insert s.input.reads
        (f.needed text {o | ∃ p, s.passes = [p] ∧ p.TriesAt text s.input o}))
        (s.next stop).2.input.reads := by
  obtain ⟨input, passes⟩ := s
  have quiet : (∀ p, passes ≠ [p]) → f.needed text
      {o | ∃ p, passes = [p] ∧ p.TriesAt text input o} = ∅ := by
    intro other
    simp [Family.needed, other]
  rw [input_next]
  match passes with
  | [] =>
    rw [quiet nofun, insert_empty_eq]
    exact ⟨h.of_next stop, isGreatest_singleton⟩
  | [p] =>
    obtain ⟨onText, greatest⟩ := h.next_outermost members
    refine ⟨onText.of_next stop, ?_⟩
    have same : {o | ∃ q, [p] = [q] ∧ q.TriesAt text input o} = {o | p.TriesAt text input o} := by
      simp
    rwa [same]
  | p :: r :: around =>
    obtain ⟨onText, same⟩ := h.next_inner
    rw [quiet nofun, insert_empty_eq, same]
    exact ⟨onText.of_next stop, isGreatest_singleton⟩

theorem TriesAt.le (h : s.TriesAt text schedule o) : o ≤ text.length := by
  induction h with
  | call _ tries => exact tries.le
  | later _ ih => exact ih

/-- A run reads what its attempts need, if that was not read before. -/
theorem Over.afterCalls (h : s.Over f text) (members : f.members ≠ []) (schedule : List Bool) :
    (s.afterCalls schedule).Over f text ∧
      IsGreatest (insert s.input.reads (f.needed text {o | s.TriesAt text schedule o}))
        (s.afterCalls schedule).input.reads := by
  induction schedule generalizing s with
  | nil =>
    have none : f.needed text ∅ = ∅ := by simp [Family.needed]
    rw [offsets_nil, none, insert_empty_eq]
    exact ⟨h, isGreatest_singleton⟩
  | cons stop rest ih =>
    obtain ⟨onText, greatest⟩ := h.next members stop
    obtain ⟨onText', greatest'⟩ := ih onText
    rw [offsets_cons, Family.needed_union]
    exact ⟨onText', isGreatest_insert_union greatest greatest'⟩

/-- The reads of a run over a text: the greatest need of the attempts that the outermost pass has
made, each of which needs one thing. What was read is a beginning of the text, read once; the end
is met at most once; and inner passes read nothing, whatever they might read from. -/
theorem isGreatest_reads {family : Family Automaton} (members : family.members ≠ [])
    (text : String) (schedule : List Bool) :
    let s := start family (.ofString text)
    let t := s.afterCalls schedule
    (schedule = [] → t.input.reads = 0) ∧
    (schedule ≠ [] → IsGreatest
      {m | ∃ o, s.TriesAt text.toList schedule o ∧ family.Needs text.toList o m} t.input.reads) ∧
    (∀ o, s.TriesAt text.toList schedule o → ∃! m, family.Needs text.toList o m) ∧
    t.input.rest = text.toList.drop t.input.reads ∧
    t.input.reads ≤ text.toList.length + 1 ∧
    ∀ p q around, t.passes = p :: q :: around →
      (∀ other, (p.scan other).2 = other) ∧ ∀ stop, (t.next stop).2.input = t.input := by
  intro s t
  have first := over_start family text
  obtain ⟨onText, greatest⟩ := first.afterCalls members schedule
  refine ⟨?_, ?_, fun o tries => ?_, onText.input.rest, onText.input.le, ?_⟩
  · rintro rfl
    rfl
  · intro some
    obtain ⟨stop, rest, rfl⟩ := List.exists_cons_of_ne_nil some
    -- The attempt at the beginning of the text needs a character, or the end.
    have tries : s.TriesAt text.toList (stop :: rest) 0 := .call rfl (.here (Nat.zero_le _) rfl)
    obtain ⟨m, needs⟩ := family.exists_needs (Nat.zero_le text.toList.length)
    have pos := needs.lt members (Nat.zero_le _)
    refine ⟨greatest.1.resolve_left fun unread => ?_, fun n hn => greatest.2 (.inr hn)⟩
    have le : m ≤ t.input.reads := greatest.2 (.inr ⟨0, tries, needs⟩)
    have unread : t.input.reads = 0 := unread
    omega
  · obtain ⟨m, needs⟩ := family.exists_needs tries.le
    exact ⟨m, needs, fun n needs' => needs'.unique needs⟩
  · intro p q around passes
    have onText : t.Over family text.toList := onText
    clear_value t
    obtain ⟨input, _⟩ := t
    cases passes
    refine ⟨Pass.scan_of_ended (onText.inner p List.mem_cons_self), fun stop => ?_⟩
    rw [input_next]
    exact onText.next_inner.2

/-- Over `abda` the attempt at `a` looks for `abc` and needs three characters. The attempts at the
two characters skipped in the next call need none beyond them, and the last attempt needs the
end. -/
theorem isGreatest_reads_behind_lookahead :
    let family := Family.plain Automaton.aOrAbc .nil
    let s := start family (.ofString "abda")
    family.members ≠ [] ∧
      IsGreatest {m | ∃ o, s.TriesAt "abda".toList [false] o ∧ family.Needs "abda".toList o m} 3 ∧
      IsGreatest
        {m | ∃ o, s.TriesAt "abda".toList [false, false] o ∧ family.Needs "abda".toList o m} 5 := by
  intro family s
  have members : family.members ≠ [] := List.cons_ne_nil _ _
  refine ⟨members, ?_, ?_⟩
  · have greatest := (isGreatest_reads members "abda" [false]).2.1 (List.cons_ne_nil _ _)
    have reads : (s.afterCalls [false]).input.reads = 3 := by decide +kernel
    rwa [reads] at greatest
  · have greatest := (isGreatest_reads members "abda" [false, false]).2.1 (List.cons_ne_nil _ _)
    have reads : (s.afterCalls [false, false]).input.reads = 5 := by decide +kernel
    rwa [reads] at greatest

end Scanner

end Munch
