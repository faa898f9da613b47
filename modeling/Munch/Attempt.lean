import Munch.Automaton.Basic
import Munch.Candidate
import Munch.Family
import Munch.Input

/-!
# One attempt at a match

All members of a family run over the characters ahead at once. A run is a member with the
state it is in; a run whose automaton has no move ends. Whenever runs accept, their members
become candidates. The attempt goes on while a run is live, past any candidate, because a
longer one may follow; at the end of the text the runs still live may accept through their
end links.

## Main definitions

* `Attempt.take`, `Attempt.close`: one character, and the end of the text.
* `Attempt.feed`, `Attempt.readOn`: over characters at hand, and reading on while a run is live.
-/

namespace Munch

/-- A member of the family under way, in one of its states. -/
structure Run where
  index : Nat
  automaton : Automaton
  state : Nat

namespace Run

/-- The run after a character, unless that ends it. -/
def step (r : Run) (c : Char) : Option Run :=
  (r.automaton.step r.state c).map fun q => { r with state := q }

/-- The text so far is accepted. -/
def accepts (r : Run) : Bool := r.automaton.accepts r.state

/-- The text so far is accepted if nothing follows it. -/
def acceptsAtEnd (r : Run) : Bool := (r.automaton.endChain r.state).any r.automaton.accepts

end Run

/-- The runs still live, the characters taken, and the best candidate so far. -/
structure Attempt where
  live : List Run
  length : Nat := 0
  best : Option Candidate := none

namespace Attempt

/-- Nothing taken yet, every member in its start states. -/
def start (family : Family Automaton) (fresh : Bool) : Attempt where
  live := family.members.zipIdx.flatMap fun (a, i) => (a.starts fresh).map (⟨i, a, ·⟩)

@[simp] theorem length_start (family : Family Automaton) (fresh : Bool) :
    (start family fresh).length = 0 := rfl

@[simp] theorem best_start (family : Family Automaton) (fresh : Bool) :
    (start family fresh).best = none := rfl

/-- Let runs that accept `length` characters compete with the best candidate so far. -/
def contend (best : Option Candidate) (length : Nat) (runs : List Run) : Option Candidate :=
  runs.foldl (fun best r => Candidate.better best ⟨r.index, length⟩) best

/-- Every live run takes a character. -/
def take (a : Attempt) (c : Char) : Attempt :=
  let live := a.live.filterMap (·.step c)
  { live, length := a.length + 1, best := contend a.best (a.length + 1) (live.filter (·.accepts)) }

/-- The text ends here, and with it every run. -/
def close (a : Attempt) : Attempt :=
  { a with live := [], best := contend a.best a.length (a.live.filter (·.acceptsAtEnd)) }

/-- Take characters at hand, in order, while a run is live. -/
def feed (a : Attempt) : List Char → Attempt
  | [] => a
  | c :: cs => if a.live.isEmpty then a else (a.take c).feed cs

/-- Read on while a run is live. Gives the attempt, the characters read after those in `read`,
and whether the end of the input was met. -/
def readOn (a : Attempt) (read : Array Char) (input : Input) :
    Except ReadError (Attempt × Array Char × Bool) × Input :=
  if a.live.isEmpty then (.ok (a, read, false), input)
  else
    match h : input.read with
    | (.ok (some c), input') =>
      have : input'.rest.length < input.rest.length := by simp [Input.rest_of_read_some h]
      (a.take c).readOn (read.push c) input'
    | (.ok none, input') => (.ok (a.close, read, true), input')
    | (.error e, input') => (.error e, input')
termination_by input.rest.length

section ReadOn

variable {a b : Attempt} {read got : Array Char} {input left : Input}

theorem readOn_of_dead (dead : a.live.isEmpty) :
    a.readOn read input = (.ok (a, read, false), input) := by
  rw [readOn, if_pos dead]

theorem readOn_of_char (live : ¬a.live.isEmpty) {c : Char}
    (h : input.read = (.ok (some c), left)) :
    a.readOn read input = (a.take c).readOn (read.push c) left := by
  rw [readOn, if_neg live]
  split <;> simp_all

theorem readOn_of_end (live : ¬a.live.isEmpty) (h : input.read = (.ok none, left)) :
    a.readOn read input = (.ok (a.close, read, true), left) := by
  rw [readOn, if_neg live]
  split <;> simp_all

theorem readOn_of_failure (live : ¬a.live.isEmpty) {e : ReadError}
    (h : input.read = (.error e, left)) : a.readOn read input = (.error e, left) := by
  rw [readOn, if_neg live]
  split <;> simp_all

/-- Reading on loses nothing: what was read and what is left make up what was there. -/
theorem readOn_conserves {ended : Bool}
    (h : a.readOn read input = (.ok (b, got, ended), left)) :
    got.toList ++ left.rest = read.toList ++ input.rest := by
  induction a, read, input using readOn.induct with
  | case1 a read input dead =>
    rw [readOn_of_dead dead] at h
    cases h
    rfl
  | case2 a read input live c next hr _ ih =>
    rw [readOn_of_char live hr] at h
    simpa [Input.rest_of_read_some hr] using ih h
  | case3 a read input live next hr =>
    rw [readOn_of_end live hr] at h
    cases h
    simp [Input.rest_of_read_none hr]
  | case4 a read input live e next hr =>
    rw [readOn_of_failure live hr] at h
    cases h

/-- Every character read is taken. -/
theorem length_of_readOn {ended : Bool} (h : a.readOn read input = (.ok (b, got, ended), left)) :
    b.length + read.size = a.length + got.size := by
  induction a, read, input using readOn.induct with
  | case1 a read input dead =>
    rw [readOn_of_dead dead] at h
    cases h
    rfl
  | case2 a read input live c next hr _ ih =>
    rw [readOn_of_char live hr] at h
    have := ih h
    simp only [Array.size_push, take] at this
    omega
  | case3 a read input live next hr =>
    rw [readOn_of_end live hr] at h
    cases h
    rfl
  | case4 a read input live e next hr =>
    rw [readOn_of_failure live hr] at h
    cases h

theorem length_feed_le (a : Attempt) (cs : List Char) :
    (a.feed cs).length ≤ a.length + cs.length := by
  induction cs generalizing a with
  | nil => exact Nat.le_add_right ..
  | cons c cs ih =>
    rw [feed]
    split
    · exact Nat.le_add_right ..
    · have := ih (a.take c)
      simp only [take, List.length_cons] at this ⊢
      omega

/-- A preference among candidates that all have a length from 1 to `n`. -/
def Within (n : Nat) (best : Option Candidate) : Prop :=
  ∀ c ∈ best, 0 < c.length ∧ c.length ≤ n

theorem Within.mono {m n : Nat} {best : Option Candidate} (h : Within m best) (le : m ≤ n) :
    Within n best := fun c hc => ⟨(h c hc).1, Nat.le_trans (h c hc).2 le⟩

theorem Within.contend {n : Nat} {best : Option Candidate} (h : Within n best) (runs : List Run) :
    Within n (contend best n runs) := by
  rw [Attempt.contend]
  induction runs generalizing best with
  | nil => exact h
  | cons r runs ih =>
    refine ih fun c hc => ?_
    simp only [Candidate.better] at hc
    grind [Within]

theorem Within.take (h : Within a.length a.best) (c : Char) :
    Within (a.take c).length (a.take c).best :=
  (h.mono (Nat.le_succ _)).contend _

theorem Within.close (h : Within a.length a.best) : Within a.length a.close.best :=
  h.contend _

theorem Within.feed (h : Within a.length a.best) (cs : List Char) :
    Within (a.feed cs).length (a.feed cs).best := by
  induction cs generalizing a with
  | nil => exact h
  | cons c cs ih =>
    rw [Attempt.feed]
    split
    · exact h
    · exact ih (h.take c)

theorem Within.readOn {ended : Bool} (w : Within a.length a.best)
    (h : a.readOn read input = (.ok (b, got, ended), left)) : Within b.length b.best := by
  induction a, read, input using readOn.induct with
  | case1 a read input dead =>
    rw [readOn_of_dead dead] at h
    cases h
    exact w
  | case2 a read input live c next hr _ ih =>
    rw [readOn_of_char live hr] at h
    exact ih (w.take c) h
  | case3 a read input live next hr =>
    rw [readOn_of_end live hr] at h
    cases h
    exact w.close
  | case4 a read input live e next hr =>
    rw [readOn_of_failure live hr] at h
    cases h

end ReadOn

end Attempt
end Munch
