import Munch.Text.Escape

/-!
# Automata over characters

An automaton is a table of states; state 0 is the initial one. A state tries its edges in
order and takes the first that covers the character, even when that edge has no target and so
ends the run; only a character that no edge covers takes the fallback. Besides, a state may
link to another one silently, at the start or at the end of the text. `Automaton.ofStates`
admits a table exactly when every reference is to one of its states, no range is empty, and
nothing is accepted before the first character.

## Main definitions

* `Automaton.step`: the move of a state on a character.
* `Automaton.startChain`, `Automaton.endChain`: the states reached along silent links.
* `Automaton.ofStates`: the automaton of a table, or the first fault of the table.
-/

namespace Munch

/-- Why a description gives no automaton. -/
inductive BuildError where
  | noStates
  | unknownState (state : Nat)
  | emptyRange (low high : Char)
  | emptyLiteral
  | acceptsEmpty
deriving DecidableEq

/-- The wording of a build error. -/
def BuildError.message : BuildError → String
  | .noStates => "automaton has no states"
  | .unknownState q => s!"transition references unknown state {q}"
  | .emptyRange low high =>
    "empty character range " ++ Text.quotedChar low ++ "..=" ++ Text.quotedChar high
  | .emptyLiteral => "empty literal"
  | .acceptsEmpty => "automaton accepts the empty string"

namespace Automaton

/-- A move on the characters from `low` to `high`, both included. Without a target it ends
the run, which carves an exception out of a state's fallback. -/
structure Edge where
  low : Char
  high : Char
  target : Option Nat
deriving DecidableEq

/-- A row of the table. -/
structure State where
  accepting : Bool := false
  /-- Tried in order; the first that covers the character decides. -/
  edges : List Edge := []
  /-- Taken on a character that no edge covers. -/
  otherwise : Option Nat := none
  /-- Followed silently, at the start of the text only. -/
  start : Option Nat := none
  /-- Followed silently, at the end of the text only. -/
  finish : Option Nat := none
deriving DecidableEq, Inhabited

namespace Edge

/-- Whether the edge decides the move on a character. -/
def covers (e : Edge) (c : Char) : Bool := decide (e.low ≤ c) && decide (c ≤ e.high)

/-- The edge fits a table of `n` states. -/
def WellFormed (n : Nat) (e : Edge) : Prop := e.low ≤ e.high ∧ ∀ q ∈ e.target, q < n

end Edge

/-- The fault of a reference in a table of `n` states. -/
def unknown? (n : Nat) : Option Nat → Option BuildError
  | some q => if q < n then none else some (.unknownState q)
  | none => none

@[simp] theorem unknown?_eq_none {n : Nat} {q : Option Nat} :
    unknown? n q = none ↔ ∀ r ∈ q, r < n := by
  cases q <;> simp [unknown?]

/-- The first fault of an edge: an empty range before an unknown target. -/
def Edge.fault? (n : Nat) (e : Edge) : Option BuildError :=
  if e.low ≤ e.high then unknown? n e.target else some (.emptyRange e.low e.high)

@[simp] theorem Edge.fault?_eq_none {n : Nat} {e : Edge} :
    e.fault? n = none ↔ e.WellFormed n := by
  unfold Edge.fault? Edge.WellFormed
  split
  · next h => simp [h]
  · next h => exact ⟨nofun, fun w => absurd w.1 h⟩

namespace State

/-- The move on a character. -/
def step (s : State) (c : Char) : Option Nat :=
  match s.edges.find? (·.covers c) with
  | some e => e.target
  | none => s.otherwise

/-- The state fits a table of `n` states. -/
def WellFormed (n : Nat) (s : State) : Prop :=
  (∀ q ∈ s.otherwise, q < n) ∧ (∀ q ∈ s.start, q < n) ∧ (∀ q ∈ s.finish, q < n) ∧
    ∀ e ∈ s.edges, e.WellFormed n

/-- The first fault of a state: its fallback, its two links, then its edges in order. -/
def fault? (n : Nat) (s : State) : Option BuildError :=
  unknown? n s.otherwise <|> unknown? n s.start <|> unknown? n s.finish <|>
    s.edges.findSome? (·.fault? n)

@[simp] theorem fault?_eq_none {n : Nat} {s : State} : s.fault? n = none ↔ s.WellFormed n := by
  simp [fault?, WellFormed]

theorem step_lt {n : Nat} {s : State} (h : s.WellFormed n) {c : Char} {q : Nat}
    (hq : s.step c = some q) : q < n := by
  rw [step] at hq
  split at hq
  · next e he => exact (h.2.2.2 e (List.mem_of_find?_eq_some he)).2 q hq
  · exact h.1 q hq

end State

/-- The states met from a first one along silent links, cut before the first that is already
in `seen` or was met before. A walk in a table never outlasts the number of its states. -/
def walk (link : Nat → Option Nat) : Nat → List Nat → Option Nat → List Nat
  | fuel + 1, seen, some q =>
    if q ∈ seen then [] else q :: walk link fuel (q :: seen) (link q)
  | _, _, _ => []

theorem walk_lt {link : Nat → Option Nat} {n : Nat} (h : ∀ p, ∀ q ∈ link p, q < n)
    {fuel : Nat} {seen : List Nat} {first : Option Nat} (hf : ∀ q ∈ first, q < n) :
    ∀ q ∈ walk link fuel seen first, q < n := by
  induction fuel generalizing seen first with
  | zero => simp [walk]
  | succ fuel ih =>
    cases first with
    | none => simp [walk]
    | some p =>
      intro q hq
      rw [walk] at hq
      split at hq
      · simp at hq
      · rcases List.mem_cons.1 hq with rfl | hq
        · exact hf _ rfl
        · exact ih (fun r hr => h p r hr) q hq

/-- The table accepts in a state. -/
def acceptsAt (states : Array State) (q : Nat) : Bool := (states[q]?).any (·.accepting)

/-- The silent link of a state at the start of the text. -/
def startLink (states : Array State) (q : Nat) : Option Nat := (states[q]?).bind (·.start)

/-- The silent link of a state at the end of the text. -/
def endLink (states : Array State) (q : Nat) : Option Nat := (states[q]?).bind (·.finish)

/-- State 0 and the states reached from it by start links, in order. -/
def startStates (states : Array State) : List Nat :=
  walk (startLink states) states.size [] (some 0)

/-- The states other than `q` reached from `q` by end links, in order. -/
def endStates (states : Array State) (q : Nat) : List Nat :=
  walk (endLink states) states.size [q] (endLink states q)

end Automaton

/-- A table of states whose references are sound and which accepts nothing before the first
character. -/
structure Automaton where
  states : Array Automaton.State
  nonempty : 0 < states.size
  wellFormed : ∀ s ∈ states, s.WellFormed states.size
  silent : ∀ q ∈ Automaton.startStates states, Automaton.acceptsAt states q = false

namespace Automaton

/-- The number of states. -/
def size (a : Automaton) : Nat := a.states.size

/-- Whether a text that ends in this state is accepted. -/
def accepts (a : Automaton) (q : Nat) : Bool := acceptsAt a.states q

/-- The move of a state on a character; `none` ends the run. -/
def step (a : Automaton) (q : Nat) (c : Char) : Option Nat := (a.states[q]?).bind (·.step c)

/-- State 0 and the states reached from it by start links, cut at the first repetition. -/
def startChain (a : Automaton) : List Nat := startStates a.states

/-- The states in which a run starts: every state of the start chain at the start of the text,
elsewhere only the initial one. -/
def starts (a : Automaton) (fresh : Bool) : List Nat := if fresh then a.startChain else [0]

/-- The states reached from `q` by end links, `q` excluded, cut at the first repetition. -/
def endChain (a : Automaton) (q : Nat) : List Nat := endStates a.states q

/-- The automaton of a table, or the first fault of the table. Acceptance at the start is
examined last, when every reference is known to be sound. -/
def ofStates (states : Array State) : Except BuildError Automaton :=
  if nonempty : 0 < states.size then
    match fault : states.toList.findSome? (·.fault? states.size) with
    | some e => .error e
    | none =>
      if silent : ∀ q ∈ startStates states, acceptsAt states q = false then
        .ok ⟨states, nonempty, by
          intro s hs
          exact State.fault?_eq_none.1
            (List.findSome?_eq_none_iff.1 fault s (Array.mem_toList_iff.2 hs)), silent⟩
      else .error .acceptsEmpty
  else .error .noStates

variable (a : Automaton)

theorem states_inj {a b : Automaton} (h : a.states = b.states) : a = b := by
  cases a; cases b; simp_all

theorem state_wellFormed {q : Nat} {s : State} (h : a.states[q]? = some s) :
    s.WellFormed a.size :=
  a.wellFormed s (Array.mem_of_getElem? h)

/-- A run never leaves the table. -/
theorem step_lt_size {q r : Nat} {c : Char} (h : a.step q c = some r) : r < a.size := by
  obtain ⟨s, hs, hr⟩ := Option.bind_eq_some_iff.1 h
  exact State.step_lt (a.state_wellFormed hs) hr

theorem startChain_lt_size {q : Nat} (h : q ∈ a.startChain) : q < a.size := by
  refine walk_lt (fun p r hr => ?_) (fun r hr => ?_) q h
  · obtain ⟨s, hs, hr⟩ := Option.bind_eq_some_iff.1 hr
    exact (a.state_wellFormed hs).2.1 r hr
  · cases hr; exact a.nonempty

theorem starts_lt_size {fresh : Bool} {q : Nat} (h : q ∈ a.starts fresh) : q < a.size := by
  rw [starts] at h
  split at h
  · exact a.startChain_lt_size h
  · rw [List.mem_singleton.1 h]; exact a.nonempty

end Automaton
end Munch
