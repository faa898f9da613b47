import Munch.Automaton.Basic

/-!
# Building automata step by step

A builder grows a table from the single initial state, one state or transition at a time. A
step may name a source state that does not exist; the first such state is remembered and
reported when the automaton is built, even if the state has been added since. Targets are
examined by `Automaton.ofStates` at the end, so a step may name a target before it is added.

## Main definitions

* `Builder.spell`: spell a text, sharing the single-character transitions already there.
* `Builder.build`: the automaton, or the first unknown source, or the first fault of the table.
* `Automaton.literals`, `Automaton.oneOrMore`: the two ready-made shapes.
* `Builder.Step`, `Builder.perform`: the building steps as data.
-/

namespace Munch

open Automaton (State Edge)

/-- A table under construction. -/
structure Builder where
  states : Array State := #[{}]
  /-- The first source named while it was not a state. -/
  unknown : Option Nat := none

namespace Builder

/-- Only the initial state, which does not accept. -/
def initial : Builder := {}

/-- The number that the next added state gets. -/
def nextState (b : Builder) : Nat := b.states.size

/-- One more state. -/
def addState (b : Builder) (accepting : Bool) : Builder :=
  { b with states := b.states.push { accepting } }

/-- Change a state, or remember that it is unknown. -/
def update (b : Builder) (q : Nat) (change : State → State) : Builder :=
  if q < b.states.size then { b with states := b.states.modify q change }
  else { b with unknown := b.unknown <|> some q }

/-- Make a state accepting. -/
def accept (b : Builder) (q : Nat) : Builder := b.update q ({ · with accepting := true })

/-- One more edge, after those already there. -/
def addEdge (b : Builder) (source : Nat) (e : Edge) : Builder :=
  b.update source fun s => { s with edges := s.edges ++ [e] }

/-- A transition on a range of characters, both ends included. -/
def range (b : Builder) (source : Nat) (low high : Char) (target : Nat) : Builder :=
  b.addEdge source ⟨low, high, some target⟩

/-- A transition on a single character. -/
def on (b : Builder) (source : Nat) (c : Char) (target : Nat) : Builder :=
  b.range source c c target

/-- A transition on each character of a set. -/
def anyOf (b : Builder) (source : Nat) (chars : String) (target : Nat) : Builder :=
  chars.toList.foldl (fun b c => b.on source c target) b

/-- End the run on each character of a set, whatever the fallback says. -/
def reject (b : Builder) (source : Nat) (chars : String) : Builder :=
  chars.toList.foldl (fun b c => b.addEdge source ⟨c, c, none⟩) b

/-- The transition on every character that no edge covers. -/
def otherwise (b : Builder) (source target : Nat) : Builder :=
  b.update source ({ · with otherwise := some target })

/-- The silent link at the start of the text. -/
def onStart (b : Builder) (source target : Nat) : Builder :=
  b.update source ({ · with start := some target })

/-- The silent link at the end of the text. -/
def onEnd (b : Builder) (source target : Nat) : Builder :=
  b.update source ({ · with finish := some target })

/-- The target of the first edge of a state that covers exactly one character. -/
def shared? (b : Builder) (q : Nat) (c : Char) : Option Nat := do
  let s ← b.states[q]?
  let e ← s.edges.find? fun e => e.low = c ∧ e.high = c
  e.target

/-- Spell characters from a state: follow a transition that is already there for exactly that
character, else add a state and the transition to it. Gives the state reached. -/
def spell (b : Builder) (q : Nat) : List Char → Builder × Nat
  | [] => (b, q)
  | c :: cs =>
    match b.shared? q c with
    | some next => spell b next cs
    | none => spell ((b.addState false).on q c b.nextState) b.nextState cs

/-- Spell a text from a state and accept at its end. -/
def spellAccepting (b : Builder) (source : Nat) (text : String) : Builder :=
  let (b, final) := b.spell source text.toList
  b.accept final

/-- The automaton built, unless some step had an unknown source or the table has a fault. -/
def build (b : Builder) : Except BuildError Automaton :=
  match b.unknown with
  | some q => .error (.unknownState q)
  | none => Automaton.ofStates b.states

/-- A building step. -/
inductive Step where
  | state (accepting : Bool)
  | accept (state : Nat)
  | on (source : Nat) (char : Char) (target : Nat)
  | range (source : Nat) (low high : Char) (target : Nat)
  | anyOf (source : Nat) (chars : String) (target : Nat)
  | reject (source : Nat) (chars : String)
  | otherwise (source target : Nat)
  | onStart (source target : Nat)
  | onEnd (source target : Nat)
  | literal (source : Nat) (text : String)

/-- Perform a step. Adding a state yields its number, spelling a literal the state reached. -/
def perform (b : Builder) : Step → Builder × Option Nat
  | .state accepting => (b.addState accepting, some b.nextState)
  | .accept q => (b.accept q, none)
  | .on source c target => (b.on source c target, none)
  | .range source low high target => (b.range source low high target, none)
  | .anyOf source chars target => (b.anyOf source chars target, none)
  | .reject source chars => (b.reject source chars, none)
  | .otherwise source target => (b.otherwise source target, none)
  | .onStart source target => (b.onStart source target, none)
  | .onEnd source target => (b.onEnd source target, none)
  | .literal source text =>
    let (b, final) := b.spell source text.toList
    (b, some final)

/-- Perform steps in order, with what each yielded. -/
def performAll (b : Builder) : List Step → Builder × List (Option Nat)
  | [] => (b, [])
  | s :: rest =>
    let (b, yielded) := b.perform s
    let (b, later) := b.performAll rest
    (b, yielded :: later)

end Builder

namespace Automaton

/-- Spell each literal from the initial state and accept at its end. -/
def spellAll (b : Builder) : List String → Except BuildError Builder
  | [] => .ok b
  | text :: rest =>
    if text = "" then .error .emptyLiteral else spellAll (b.spellAccepting 0 text) rest

/-- The automaton that accepts exactly the given texts, none of which may be empty. -/
def literals (texts : List String) : Except BuildError Automaton := do
  (← spellAll .initial texts).build

/-- The automaton that accepts one or more characters of a set, which may not be empty. -/
def oneOrMore (chars : String) : Except BuildError Automaton :=
  if chars = "" then .error .emptyLiteral
  else (((Builder.initial.addState true).anyOf 0 chars 1).anyOf 1 chars 1).build

end Automaton
end Munch
