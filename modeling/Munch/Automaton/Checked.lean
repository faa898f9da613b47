import Mathlib.Data.List.TakeWhile
import Munch.Automaton.Basic

/-!
# Automata whose lookups can fail

An automaton keeps its states in a table and refers to them by their numbers. Here everything that
an automaton does is told once more over the bare table, without the knowledge that its references
are sound. Whatever it needs from the table it looks up, and an index out of range ends everything
with `none`. A silent chain has a second table, with a mark for each state that was met; it is what
ends the chain when the links run in circles.

## Main definitions

* `Checked.Chain`: a silent chain under way, which hands out one state at a time.
* `Checked.Chain.search`: the states of a chain up to the first with a property.
* `Checked.ofStates`: the table of an automaton, or its first fault.
* `Checked.ofStates_eq`: whatever the table, no index is out of range.
-/

namespace Munch.Checked

open Automaton (State acceptsAt startLink endLink walk)

/-- The table accepts in a state. -/
def accepts (states : Array State) (q : Nat) : Option Bool := do
  return (← states[q]?).accepting

/-- The move of a state on a character. -/
def step (states : Array State) (q : Nat) (c : Char) : Option (Option Nat) := do
  return (← states[q]?).step c

/-- Mark an index. -/
def mark (marks : Array Bool) (i : Nat) : Option (Array Bool) :=
  if i < marks.size then some (marks.setIfInBounds i true) else none

/-- Marking an index leaves one unmarked index less, unless it was marked. -/
theorem count_mark {marks marked : Array Bool} {i : Nat} (h : mark marks i = some marked)
    (fresh : marks[i]? = some false) : marked.count false + 1 = marks.count false := by
  obtain ⟨inside, unmarked⟩ := Array.getElem?_eq_some_iff.1 fresh
  obtain rfl : marks.setIfInBounds i true = marked := by simpa [mark, inside] using h
  have some_unmarked : 0 < marks.count false :=
    Array.count_pos_iff.2 (unmarked ▸ Array.getElem_mem inside)
  rw [Array.setIfInBounds, dif_pos inside, Array.count_set, unmarked]
  simp only [beq_self_eq_true, ↓reduceIte, Bool.true_beq, Bool.false_eq_true]
  omega

/-! ## Silent chains -/

/-- A silent chain under way: the state that comes next, and a mark for each state met. -/
structure Chain where
  next : Option Nat
  met : Array Bool

namespace Chain

/-- The chain of start links from state 0 on. -/
def atStart (states : Array State) : Chain := ⟨some 0, .replicate states.size false⟩

/-- The chain of end links behind a state, which counts as met. -/
def atEnd (states : Array State) (q : Nat) : Option Chain := do
  let s ← states[q]?
  let met ← mark (.replicate states.size false) q
  return ⟨s.finish, met⟩

/-- The next state and the chain behind it, if a state follows that was not met. -/
def advance (states : Array State) (link : State → Option Nat) (chain : Chain) :
    Option (Option (Nat × Chain)) :=
  match chain.next with
  | none => some none
  | some q => do
    if ← chain.met[q]? then return none
    let met ← mark chain.met q
    let s ← states[q]?
    return some (q, ⟨link s, met⟩)

variable {states : Array State} {link : State → Option Nat} {chain behind : Chain} {q : Nat}

theorem count_advance_lt (h : chain.advance states link = some (some (q, behind))) :
    behind.met.count false < chain.met.count false := by
  rw [advance] at h
  split at h
  · cases h
  · simp only [Option.bind_eq_bind, Option.bind_eq_some_iff] at h
    obtain ⟨old, there, h⟩ := h
    cases old with
    | true => simp at h
    | false =>
      simp only [Bool.false_eq_true, ↓reduceIte, Option.bind_eq_some_iff] at h
      obtain ⟨met, marked, s, -, h⟩ := h
      cases h
      have := count_mark marked there
      simp only
      omega

/-- The states of a chain in order, up to the first at which a property holds, and whether it holds
at one of them. Nothing behind that state is looked up. -/
def search (states : Array State) (link : State → Option Nat) (p : Nat → Option Bool)
    (chain : Chain) : Option (List Nat × Bool) :=
  match advanced : chain.advance states link with
  | none => none
  | some none => some ([], false)
  | some (some (q, behind)) => do
    have := count_advance_lt advanced
    if ← p q then return ([], true)
    let (rest, holds) ← behind.search states link p
    return (q :: rest, holds)
termination_by chain.met.count false

section Search

variable {p : Nat → Option Bool}

theorem search_of_end (h : chain.advance states link = some none) :
    chain.search states link p = some ([], false) := by
  rw [search]
  split <;> simp_all

theorem search_of_next (h : chain.advance states link = some (some (q, behind))) :
    chain.search states link p = (p q).bind fun holds =>
      if holds then some ([], true)
      else (behind.search states link p).bind fun (rest, holds) => some (q :: rest, holds) := by
  rw [search]
  split <;> simp_all

/-- The marked indices are the states seen. -/
def Marks (n : Nat) (met : Array Bool) (seen : List Nat) : Prop :=
  ∀ q < n, met[q]? = some (decide (q ∈ seen))

variable {n fuel : Nat} {met : Array Bool} {seen : List Nat}

theorem marks_replicate (n : Nat) : Marks n (.replicate n false) [] := by
  intro q inside
  simp [inside]

theorem Marks.mark (marks : Marks n met seen) (inside : q < n) :
    ∃ marked, mark met q = some marked ∧ Marks n marked (q :: seen) := by
  obtain ⟨inside', -⟩ := Array.getElem?_eq_some_iff.1 (marks q inside)
  refine ⟨met.setIfInBounds q true, by simp [Checked.mark, inside'], fun r hr => ?_⟩
  rw [Array.getElem?_setIfInBounds]
  split
  · next same => simp [← same]
  · next other => simp [marks r hr, Ne.symm other]

/-- With every index marked, every state was seen. -/
theorem Marks.mem_of_count (marks : Marks n met seen) (full : met.count false = 0)
    (inside : q < n) : q ∈ seen := by
  by_cases old : q ∈ seen
  · exact old
  · have unmarked : met[q]? = some false := by simp [marks q inside, old]
    have := Array.count_pos_iff.2 (Array.mem_of_getElem? unmarked)
    omega

/-- The chain of end links behind a state of the table starts with that state marked. -/
theorem exists_atEnd (inside : q < states.size) :
    ∃ met, atEnd states q = some ⟨endLink states q, met⟩ ∧ met.size = states.size ∧
      Marks states.size met [q] := by
  obtain ⟨s, found⟩ : ∃ s, states[q]? = some s := ⟨_, Array.getElem?_eq_getElem inside⟩
  obtain ⟨met, marking, marks⟩ := (marks_replicate states.size).mark inside
  refine ⟨met, by simp [atEnd, endLink, found, marking], ?_, marks⟩
  obtain ⟨-, rfl⟩ := by simpa [Checked.mark] using marking
  simp

theorem advance_of_seen (marks : Marks n met seen) (inside : q < n) (old : q ∈ seen) :
    advance states link ⟨some q, met⟩ = some none := by
  simp [advance, marks q inside, old]

theorem advance_of_new (link : State → Option Nat) {s : State} (marks : Marks states.size met seen)
    (found : states[q]? = some s) (new : q ∉ seen) :
    ∃ marked, advance states link ⟨some q, met⟩ = some (some (q, ⟨link s, marked⟩)) ∧
      Marks states.size marked (q :: seen) := by
  obtain ⟨inside, -⟩ := Array.getElem?_eq_some_iff.1 found
  obtain ⟨marked, marking, marks'⟩ := marks.mark inside
  exact ⟨marked, by simp [advance, marks q inside, new, marking, found], marks'⟩

/-- While the links lead to states of the table, a chain is searched without a lookup out of range.
The search goes along the walk of the links. -/
theorem search_eq {first : Option Nat} {holds : Nat → Bool}
    (links : ∀ s ∈ states, ∀ q ∈ link s, q < states.size)
    (holding : ∀ q < states.size, p q = some (holds q)) (marks : Marks states.size met seen)
    (enough : met.count false ≤ fuel) (inside : ∀ q ∈ first, q < states.size) :
    search states link p ⟨first, met⟩ =
      some ((walk (fun q => (states[q]?).bind link) fuel seen first).takeWhile (!holds ·),
        (walk (fun q => (states[q]?).bind link) fuel seen first).any holds) := by
  induction fuel generalizing first met seen with
  | zero =>
    have ended : advance states link ⟨first, met⟩ = some none := by
      cases first with
      | none => rfl
      | some q =>
        have old := marks.mem_of_count (Nat.le_zero.1 enough) (inside q rfl)
        exact advance_of_seen marks (inside q rfl) old
    rw [search_of_end ended]
    cases first <;> rfl
  | succ fuel ih =>
    cases first with
    | none =>
      rw [search_of_end rfl]
      rfl
    | some q =>
      have within := inside q rfl
      by_cases old : q ∈ seen
      · rw [search_of_end (advance_of_seen marks within old), walk, if_pos old]
        rfl
      · obtain ⟨s, found⟩ : ∃ s, states[q]? = some s := ⟨_, Array.getElem?_eq_getElem within⟩
        obtain ⟨marked, advanced, marks'⟩ := advance_of_new link marks found old
        have fewer := count_advance_lt advanced
        have behind := ih marks' (by simp only at fewer; omega)
          (fun r hr => links s (Array.mem_of_getElem? found) r hr)
        rw [search_of_next advanced, holding q within, walk, if_neg old]
        simp only [found, Option.bind_some, behind]
        cases here : holds q <;> simp [here]

end Search

end Chain

/-- All states of the start chain. -/
def startStates (states : Array State) : Option (List Nat) := do
  let (chain, _) ← (Chain.atStart states).search states (·.start) fun _ => some false
  return chain

/-- Some state of the start chain accepts. -/
def acceptsAtStart (states : Array State) : Option Bool := do
  let (_, accepting) ← (Chain.atStart states).search states (·.start) (accepts states)
  return accepting

/-- Some state of the end chain of a state accepts. -/
def acceptsAtEnd (states : Array State) (q : Nat) : Option Bool := do
  let chain ← Chain.atEnd states q
  let (_, accepting) ← chain.search states (·.finish) (accepts states)
  return accepting

/-- The states in which a run starts. -/
def starts (states : Array State) (fresh : Bool) : Option (List Nat) :=
  if fresh then startStates states else some [0]

/-- The table of an automaton, or its first fault. Nothing is looked up before every reference was
examined. -/
def ofStates (states : Array State) : Option (Except BuildError (Array State)) :=
  if states.size = 0 then some (.error .noStates)
  else match states.toList.findSome? (·.fault? states.size) with
    | some e => some (.error e)
    | none => do
      if ← acceptsAtStart states then return .error .acceptsEmpty
      return .ok states

/-! ## No index is out of range -/

section Table

variable {states : Array State} {q : Nat}

theorem accepts_eq (inside : q < states.size) :
    accepts states q = some (acceptsAt states q) := by
  simp [accepts, acceptsAt, inside]

variable (sound : ∀ s ∈ states, s.WellFormed states.size)
include sound

theorem search_atStart {p : Nat → Option Bool} {holds : Nat → Bool} (nonempty : 0 < states.size)
    (holding : ∀ q < states.size, p q = some (holds q)) :
    (Chain.atStart states).search states (·.start) p =
      some ((Automaton.startStates states).takeWhile (!holds ·),
        (Automaton.startStates states).any holds) := by
  refine Chain.search_eq (fun s among => (sound s among).2.1) holding (Chain.marks_replicate _)
    ?_ ?_
  · exact Nat.le_trans Array.count_le_size (by simp)
  · rintro q ⟨⟩
    exact nonempty

theorem startStates_eq (nonempty : 0 < states.size) :
    startStates states = some (Automaton.startStates states) := by
  rw [startStates, search_atStart sound nonempty fun _ _ => rfl]
  simp [List.takeWhile_eq_self_iff.2]

theorem acceptsAtStart_eq (nonempty : 0 < states.size) :
    acceptsAtStart states = some ((Automaton.startStates states).any (acceptsAt states)) := by
  rw [acceptsAtStart, search_atStart sound nonempty fun q => accepts_eq]
  rfl

theorem acceptsAtEnd_eq (inside : q < states.size) :
    acceptsAtEnd states q = some ((Automaton.endStates states q).any (acceptsAt states)) := by
  obtain ⟨met, begun, size, marks⟩ := Chain.exists_atEnd inside
  have first : ∀ r ∈ endLink states q, r < states.size := by
    intro r next
    obtain ⟨s, found, next⟩ := Option.bind_eq_some_iff.1 next
    exact (sound s (Array.mem_of_getElem? found)).2.2.1 r next
  have searched := Chain.search_eq (fun s among => (sound s among).2.2.1) (fun q => accepts_eq)
    marks (Nat.le_trans Array.count_le_size (Nat.le_of_eq size)) first
  rw [acceptsAtEnd, begun]
  simp only [Option.bind_eq_bind, Option.bind_some, searched]
  rfl

/-- A table without a fault is that of an automaton, unless it accepts at the start. -/
theorem states_ofStates (nonempty : 0 < states.size) :
    (Automaton.ofStates states).map (·.states) =
      if (Automaton.startStates states).any (acceptsAt states) then .error .acceptsEmpty
      else .ok states := by
  have faultless : states.toList.findSome? (·.fault? states.size) = none := by simpa using sound
  rw [Automaton.ofStates, dif_pos nonempty]
  split
  · next fault => rw [faultless] at fault; cases fault
  · split
    · next silent =>
      have none_accepts : (Automaton.startStates states).any (acceptsAt states) = false := by
        simpa using silent
      rw [none_accepts]
      rfl
    · next accepting =>
      have some_accepts : (Automaton.startStates states).any (acceptsAt states) = true := by
        simpa using accepting
      rw [some_accepts]
      rfl

end Table

/-- The first fault of a table is reported. -/
theorem ofStates_of_fault {states : Array State} {e : BuildError} (nonempty : 0 < states.size)
    (fault : states.toList.findSome? (·.fault? states.size) = some e) :
    Automaton.ofStates states = .error e := by
  rw [Automaton.ofStates, dif_pos nonempty]
  split <;> simp_all

/-- Whatever the table, an automaton is made from it without a lookup out of range. -/
theorem ofStates_eq (states : Array State) :
    ofStates states = some ((Automaton.ofStates states).map (·.states)) := by
  rw [ofStates]
  by_cases nonempty : 0 < states.size
  · rw [if_neg (by omega)]
    cases fault : states.toList.findSome? (·.fault? states.size) with
    | some e =>
      rw [ofStates_of_fault nonempty fault]
      rfl
    | none =>
      have sound : ∀ s ∈ states, s.WellFormed states.size := by simpa using fault
      rw [states_ofStates sound nonempty, acceptsAtStart_eq sound nonempty]
      simp only [Option.bind_eq_bind, Option.bind_some]
      split <;> rfl
  · rw [if_pos (by omega), Automaton.ofStates, dif_neg nonempty]
    rfl

/-- Every automaton is the one that is made from its table. -/
theorem ofStates_states (a : Automaton) : Automaton.ofStates a.states = .ok a := by
  have silent : (Automaton.startStates a.states).any (acceptsAt a.states) = false := by
    simpa using a.silent
  have made := states_ofStates a.wellFormed a.nonempty
  rw [silent] at made
  cases built : Automaton.ofStates a.states with
  | error e => rw [built] at made; cases made
  | ok b =>
    rw [built] at made
    rw [Automaton.states_inj (Except.ok.inj made)]

end Munch.Checked
