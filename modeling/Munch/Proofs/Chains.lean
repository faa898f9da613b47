import Mathlib.Data.List.Chain
import Mathlib.Logic.Relation
import Munch.Automaton.Checked
import Munch.Proofs.Walk

/-!
# Silent chains give what the links reach

A state has at most one silent link of each kind, so all that is reached from it lies on one path,
which ends or runs into a circle. A chain goes along this path and stops before the first state that
is marked. By then it has met everything that is reached: a marked state lies on the path behind the
first state, and so does whatever comes after it. The chain hands out one state at a call and leaves
the state that comes next behind it empty when it stops, so nothing follows the end.

## Main definitions

* `Automaton.Exhausts`: a path along links that meets all that is reached, once each.
* `Checked.Chain.pull`: a call for the next state of a chain, at its end too.
* `Automaton.chains_exhaust`: both chains of an automaton, and what calls for their states give.
-/

namespace Munch

namespace Automaton

/-- A link leads from one state to the other. -/
def Linked (link : Nat → Option Nat) (p r : Nat) : Prop := link p = some r

/-- The path goes on from a state along the links and meets, once each, all states that the links
reach from there. -/
structure Exhausts (link : Nat → Option Nat) (q : Nat) (path : List Nat) : Prop where
  inOrder : (q :: path).IsChain (Linked link)
  once : (q :: path).Nodup
  all : ∀ r, r ∈ q :: path ↔ Relation.ReflTransGen (Linked link) q r

variable {link : Nat → Option Nat} {seen path : List Nat} {first : Option Nat} {q : Nat}

/-- A walk that goes on from a state goes along the links. -/
theorem Walks.isChain (h : Walks link seen first path) (leads : link q = first) :
    (q :: path).IsChain (Linked link) := by
  induction h generalizing q with
  | finished => exact .singleton q
  | again => exact .singleton q
  | visit _ _ ih => exact .cons_cons leads (ih rfl)

/-- A walk meets different states, none of which was seen before. -/
theorem Walks.nodup (h : Walks link seen first path) :
    path.Nodup ∧ ∀ r ∈ path, r ∉ seen := by
  induction h with
  | finished => exact ⟨.nil, nofun⟩
  | again => exact ⟨.nil, nofun⟩
  | visit new _ ih =>
    obtain ⟨nodup, apart⟩ := ih
    refine ⟨List.nodup_cons.2 ⟨fun again => apart _ again List.mem_cons_self, nodup⟩, ?_⟩
    exact List.forall_mem_cons.2 ⟨new, fun r met => mt (List.mem_cons_of_mem _) (apart r met)⟩

/-- No link leads away from what was seen before or is met. -/
theorem Walks.closed (h : Walks link seen first path) :
    (∀ r ∈ first, r ∈ seen ++ path) ∧ ∀ p ∈ path, ∀ r ∈ link p, r ∈ seen ++ path := by
  induction h with
  | finished => exact ⟨nofun, nofun⟩
  | again old => exact ⟨by simpa using old, nofun⟩
  | @visit seen path q _ _ ih =>
    have same (r : Nat) : r ∈ q :: seen ++ path → r ∈ seen ++ q :: path := by
      simp only [List.mem_append, List.mem_cons]
      tauto
    refine ⟨by simp, List.forall_mem_cons.2 ⟨fun r next => same r (ih.1 r next), ?_⟩⟩
    exact fun p met r next => same r (ih.2 p met r next)

/-- A walk from a state, past nothing but that state, meets all that is reached from there. -/
theorem Walks.exhausts (h : Walks link [q] (link q) path) : Exhausts link q path := by
  have chain := h.isChain rfl
  obtain ⟨nodup, apart⟩ := h.nodup
  obtain ⟨first, later⟩ := h.closed
  refine ⟨chain, List.nodup_cons.2 ⟨fun again => apart q again (by simp), nodup⟩, fun r => ?_⟩
  constructor
  · exact chain.induction (Relation.ReflTransGen (Linked link) q) _
      (fun _ _ next reached => reached.tail next) (fun _ => .refl) r
  · intro reached
    induction reached with
    | refl => exact List.mem_cons_self
    | @tail p r _ next ih =>
      rcases List.mem_cons.1 ih with rfl | met
      · exact first r next
      · exact later p met r next

end Automaton

namespace Checked.Chain

open Automaton (State Walks)

/-- A call for the next state, with the chain that is left. What comes next is taken out of the
chain, and put back only behind a state that was not met before. -/
def pull (states : Array State) (link : State → Option Nat) (chain : Chain) :
    Option (Option Nat × Chain) :=
  match chain.next with
  | none => some (none, ⟨none, chain.met⟩)
  | some q => do
    if ← chain.met[q]? then return (none, ⟨none, chain.met⟩)
    let met ← mark chain.met q
    let s ← states[q]?
    return (some q, ⟨link s, met⟩)

/-- The replies to the first calls for states. -/
def pulls (states : Array State) (link : State → Option Nat) (chain : Chain) :
    Nat → Option (List (Option Nat))
  | 0 => some []
  | n + 1 => do
    let (reply, behind) ← chain.pull states link
    let replies ← behind.pulls states link n
    return reply :: replies

variable {states : Array State} {link : State → Option Nat} {met : Array Bool}
  {seen path : List Nat} {first : Option Nat}

/-- A call gives the state that the chain goes on with. When it goes on with none, nothing comes
next any more. -/
theorem pull_eq (chain : Chain) :
    chain.pull states link = (chain.advance states link).map fun
      | none => (none, ⟨none, chain.met⟩)
      | some (q, behind) => (some q, behind) := by
  rw [pull, advance]
  cases chain.next with
  | none => rfl
  | some q =>
    dsimp only
    rcases chain.met[q]? with _ | old | old
    · rfl
    · cases mark chain.met q with
      | none => rfl
      | some met => cases states[q]? <;> rfl
    · rfl

/-- Behind its end a chain gives nothing, however often it is called. -/
theorem pulls_of_end (n : Nat) (met : Array Bool) :
    pulls states link ⟨none, met⟩ n = some (.replicate n none) := by
  induction n with
  | zero => rfl
  | succ n ih => simp [pulls, pull, ih, List.replicate_succ]

/-- While the links lead to states of the table, no call looks up an index out of range. The calls
give the states of the walk in order and nothing after them. -/
theorem pulls_eq (links : ∀ s ∈ states, ∀ q ∈ link s, q < states.size)
    (marks : Marks states.size met seen) (inside : ∀ q ∈ first, q < states.size)
    (walks : Walks (fun q => (states[q]?).bind link) seen first path) (n : Nat) :
    pulls states link ⟨first, met⟩ n = some ((List.range n).map (path[·]?)) := by
  -- A chain that is over and one that is about to notice it give nothing, at every call.
  have ended (n : Nat) : (List.range n).map (([] : List Nat)[·]?) = .replicate n none := by
    simp [List.map_const']
  induction n generalizing first met seen path with
  | zero => rfl
  | succ n ih =>
    cases walks with
    | finished => rw [pulls_of_end, ended]
    | @again _ q old =>
      have refused : pull states link ⟨some q, met⟩ = some (none, ⟨none, met⟩) := by
        rw [pull_eq, advance_of_seen marks (inside q rfl) old]
        rfl
      rw [pulls, refused, ended, List.replicate_succ]
      simp [pulls_of_end]
    | @visit _ path q new rest =>
      obtain ⟨s, found⟩ : ∃ s, states[q]? = some s := ⟨_, Array.getElem?_eq_getElem (inside q rfl)⟩
      obtain ⟨marked, advanced, marks'⟩ := advance_of_new link marks found new
      have given : pull states link ⟨some q, met⟩ = some (some q, ⟨link s, marked⟩) := by
        rw [pull_eq, advanced]
        rfl
      simp only [found, Option.bind_some] at rest
      have later := ih marks' (links s (Array.mem_of_getElem? found)) rest
      rw [pulls, given, List.range_succ_eq_map]
      simp [later, Function.comp_def]

end Checked.Chain

namespace Automaton

open Checked (Chain)

/-- Whatever the silent links of an automaton, in circles through the first state or behind it: its
chain from state 0 is that state and what start links reach from there, the chain of a state is what
else end links reach from that state, and all of it comes in the order of the links and once. No
chain is longer than the automaton has states. Calls for its states give them in order without a
lookup out of range, and from its end on give nothing. -/
theorem chains_exhaust (a : Automaton) :
    (∃ path, a.startChain = 0 :: path ∧ Exhausts (startLink a.states) 0 path) ∧
      a.startChain.length ≤ a.size ∧
      (∀ n, (Chain.atStart a.states).pulls a.states (·.start) n =
        some ((List.range n).map (a.startChain[·]?))) ∧
      ∀ q < a.size,
        Exhausts (endLink a.states) q (a.endChain q) ∧
          (a.endChain q).length ≤ a.size ∧
          ∃ chain, Chain.atEnd a.states q = some chain ∧
            ∀ n, chain.pulls a.states (·.finish) n =
              some ((List.range n).map ((a.endChain q)[·]?)) := by
  refine ⟨?_, a.length_startChain_le, fun n => ?_, fun q inside => ⟨?_, ?_, ?_⟩⟩
  · have walks := a.walks_startChain
    generalize a.startChain = chain at walks
    cases walks with
    | again seen => cases seen
    | @visit _ path _ _ rest => exact ⟨path, rfl, rest.exhausts⟩
  · refine Chain.pulls_eq (fun s among => (a.wellFormed s among).2.1) (Chain.marks_replicate _) ?_
      a.walks_startChain n
    rintro q ⟨⟩
    exact a.nonempty
  · exact (a.walks_endChain q).exhausts
  · exact Nat.le_of_lt (a.length_endChain_lt inside)
  · obtain ⟨met, begun, -, marks⟩ := Chain.exists_atEnd inside
    exact ⟨_, begun, Chain.pulls_eq (fun s among => (a.wellFormed s among).2.2.1) marks
      (a.endLink_lt_size q) (a.walks_endChain q)⟩

/-- Two states whose start links run in a circle, and a third state. End links lead from the first
to the second and from there to the third, and run in a circle behind the first. -/
def roundabout : Automaton where
  states := #[⟨false, [], none, some 1, some 1⟩, ⟨false, [], none, some 0, some 2⟩,
    ⟨true, [], none, none, some 1⟩]
  nonempty := by decide
  wellFormed := by simp [State.WellFormed]
  silent := by decide

/-- The start chain of `roundabout` ends where it comes back to the first state. The chain of end
links behind the first state meets the circle once and gives nothing from the third call on. -/
theorem chains_exhaust_roundabout :
    roundabout.startChain = [0, 1] ∧ 0 < roundabout.size ∧
      Exhausts (endLink roundabout.states) 0 [1, 2] ∧
      ∃ chain, Chain.atEnd roundabout.states 0 = some chain ∧
        chain.pulls roundabout.states (·.finish) 4 = some [some 1, some 2, none, none] := by
  obtain ⟨exhausts, -, chain, begun, pulls⟩ := (chains_exhaust roundabout).2.2.2 0 (by decide)
  exact ⟨by decide, by decide, exhausts, chain, begun, pulls 4⟩

end Automaton
end Munch
