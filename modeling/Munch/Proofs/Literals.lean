import Munch.Automaton.Builder
import Munch.Automaton.Language
import Munch.Proofs.Walk

/-!
# Literals are spelled by a trie

A builder that only spells literals grows a trie: each state lies at the end of one path, its edges
are single characters that lead on to longer paths, and it accepts only if its path spells a
literal. States are shared between literals, and a state may come to accept long after it was
added; neither changes the path of a state that is there. So whatever the automaton accepts is one
of its literals, wherever in the text the run starts and ends.

## Main definitions

* `Automaton.State.Branches`: what a trie asks of a state.
* `Builder.Trie`: the invariant of a builder that spells literals.
* `Automaton.mem_of_literals`: only literals are accepted.
-/

namespace Munch

open Automaton (State Edge)

/-- What is made of an intermediate result was made of one that was there. -/
theorem exists_of_bind_ok {ε α β : Type} {x : Except ε α} {f : α → Except ε β} {b : β}
    (h : x >>= f = .ok b) : ∃ a, x = .ok a ∧ f a = .ok b := by
  cases x with
  | error e => cases h
  | ok a => exact ⟨a, rfl, h⟩

theorem exists_of_isOk {ε α : Type} {x : Except ε α} (h : x.isOk = true) : ∃ a, x = .ok a := by
  cases x with
  | error e => cases h
  | ok a => exact ⟨a, rfl⟩

/-- A state of a trie of `n` states at the end of the path that `path` says. -/
structure Automaton.State.Branches (texts : List String) (path : Nat → List Char) (n q : Nat)
    (s : State) : Prop where
  edges : ∀ e ∈ s.edges, e.low = e.high ∧ ∃ t < n, e.target = some t ∧ path t = path q ++ [e.low]
  otherwise : s.otherwise = none
  start : s.start = none
  finish : s.finish = none
  accepting : s.accepting = true → String.ofList (path q) ∈ texts

/-- Every step so far had a source, and the states make up a trie that accepts some of the texts. -/
structure Builder.Trie (texts : List String) (path : Nat → List Char) (b : Builder) : Prop where
  known : b.unknown = none
  nonempty : 0 < b.states.size
  root : path 0 = []
  branches : ∀ q (s : State), b.states[q]? = some s → s.Branches texts path b.states.size q

namespace Automaton

variable {texts : List String} {path : Nat → List Char} {n q t : Nat} {s : State} {c : Char}

/-- A move on a character leads to the path with the character behind it. -/
theorem State.Branches.step (h : s.Branches texts path n q) (moves : s.step c = some t) :
    path t = path q ++ [c] := by
  rw [State.step] at moves
  split at moves
  · next e found =>
    obtain ⟨single, t', -, target, longer⟩ := h.edges e (List.mem_of_find?_eq_some found)
    have covers := List.find?_some found
    simp only [Edge.covers, ← single, Bool.and_eq_true, decide_eq_true_eq] at covers
    rw [moves] at target
    cases target
    rw [longer, Char.le_antisymm covers.1 covers.2]
  · rw [h.otherwise] at moves
    cases moves

/-- More states leave a state where it is, as long as they change no path that was there. -/
theorem State.Branches.mono (h : s.Branches texts path n q) {path' : Nat → List Char} {n' : Nat}
    (more : n ≤ n') (inside : q < n) (same : ∀ r < n, path' r = path r) :
    s.Branches texts path' n' q where
  edges e he := by
    obtain ⟨single, t, within, target, longer⟩ := h.edges e he
    exact ⟨single, t, Nat.lt_of_lt_of_le within more, target, by
      rw [same t within, same q inside, longer]⟩
  otherwise := h.otherwise
  start := h.start
  finish := h.finish
  accepting accepts := same q inside ▸ h.accepting accepts

end Automaton

namespace Builder

variable {texts : List String} {path : Nat → List Char} {b : Builder} {q t : Nat} {c : Char}

theorem trie_initial (texts : List String) : Trie texts (fun _ => []) initial where
  known := rfl
  nonempty := Nat.zero_lt_one
  root := rfl
  branches q s there := by
    obtain rfl := Array.eq_of_mem_singleton (Array.mem_of_getElem? there)
    exact ⟨nofun, rfl, rfl, rfl, nofun⟩

@[simp] theorem size_addState (b : Builder) (accepting : Bool) :
    (b.addState accepting).states.size = b.states.size + 1 := Array.size_push _

@[simp] theorem size_update (b : Builder) (q : Nat) (change : State → State) :
    (b.update q change).states.size = b.states.size := by
  rw [update]
  split
  · exact Array.size_modify
  · rfl

@[simp] theorem size_on (b : Builder) (q : Nat) (c : Char) (t : Nat) :
    (b.on q c t).states.size = b.states.size := size_update b q _

/-- A new state may be given any path. -/
theorem Trie.addState (h : Trie texts path b) (w : List Char) :
    Trie texts (Function.update path b.nextState w) (b.addState false) := by
  have same (r : Nat) (old : r < b.states.size) : Function.update path b.nextState w r = path r :=
    Function.update_of_ne (Nat.ne_of_lt old) _ _
  refine ⟨h.known, by simp, by rw [same 0 h.nonempty, h.root], fun q s there => ?_⟩
  rw [size_addState]
  rw [Builder.addState, Array.getElem?_push] at there
  split at there
  · cases there
    exact ⟨nofun, rfl, rfl, rfl, nofun⟩
  · have old : q < b.states.size := (Array.getElem?_eq_some_iff.1 there).1
    exact (h.branches q s there).mono (Nat.le_succ _) old same

/-- A state may be changed in any way that a trie allows at its place. -/
theorem Trie.update (h : Trie texts path b) (inside : q < b.states.size) {change : State → State}
    (allowed : ∀ s : State, s.Branches texts path b.states.size q →
      (change s).Branches texts path b.states.size q) : Trie texts path (b.update q change) := by
  refine ⟨?_, by rw [size_update]; exact h.nonempty, h.root, fun r s there => ?_⟩
  · rw [Builder.update, if_pos inside]
    exact h.known
  · rw [size_update]
    rw [Builder.update, if_pos inside, Array.getElem?_modify] at there
    split at there
    · next here =>
      subst here
      obtain ⟨old, was, rfl⟩ := Option.map_eq_some_iff.1 there
      exact allowed old (h.branches _ _ was)
    · exact h.branches r s there

theorem Trie.on (h : Trie texts path b) (inside : q < b.states.size) (within : t < b.states.size)
    (longer : path t = path q ++ [c]) : Trie texts path (b.on q c t) := by
  refine h.update inside fun s branches => { branches with edges := fun e he => ?_ }
  obtain he | he := List.mem_append.1 he
  · exact branches.edges e he
  · obtain rfl := List.mem_singleton.1 he
    exact ⟨rfl, t, within, rfl, longer⟩

theorem Trie.accept (h : Trie texts path b) (inside : q < b.states.size)
    (wanted : String.ofList (path q) ∈ texts) : Trie texts path (b.accept q) :=
  h.update inside fun _ branches => { branches with accepting := fun _ => wanted }

/-- A transition that is already there leads to the path that the character continues. -/
theorem Trie.shared (h : Trie texts path b) (found : b.shared? q c = some t) :
    t < b.states.size ∧ path t = path q ++ [c] := by
  obtain ⟨s, there, found⟩ := Option.bind_eq_some_iff.1 found
  obtain ⟨e, first, target⟩ := Option.bind_eq_some_iff.1 found
  obtain ⟨-, t', within, target', longer⟩ :=
    (h.branches q s there).edges e (List.mem_of_find?_eq_some first)
  have single := List.find?_some first
  simp only [decide_eq_true_eq] at single
  rw [target] at target'
  cases target'
  exact ⟨within, single.1 ▸ longer⟩

/-- Else a state is added where the character leads to. -/
theorem Trie.grow (h : Trie texts path b) (inside : q < b.states.size) (c : Char) :
    ∃ path', Trie texts path' ((b.addState false).on q c b.nextState) ∧
      path' b.nextState = path q ++ [c] := by
  have new : Function.update path b.nextState (path q ++ [c]) b.nextState = path q ++ [c] :=
    Function.update_self _ _ _
  have old : Function.update path b.nextState (path q ++ [c]) q = path q :=
    Function.update_of_ne (Nat.ne_of_lt inside) _ _
  refine ⟨_, (h.addState (path q ++ [c])).on ?_ ?_ (by rw [new, old]), new⟩
  · rw [size_addState]
    exact Nat.lt_succ_of_lt inside
  · rw [size_addState]
    exact Nat.lt_succ_self _

/-- Spelling characters from a state ends at the path that they continue. -/
theorem Trie.spell (h : Trie texts path b) (inside : q < b.states.size) (cs : List Char) :
    ∃ path', Trie texts path' (b.spell q cs).1 ∧
      (b.spell q cs).2 < (b.spell q cs).1.states.size ∧
      path' (b.spell q cs).2 = path q ++ cs := by
  induction cs generalizing b q path with
  | nil => exact ⟨path, h, inside, (List.append_nil _).symm⟩
  | cons c cs ih =>
    rw [Builder.spell, ← List.singleton_append, ← List.append_assoc]
    cases shared : b.shared? q c with
    | some next =>
      obtain ⟨within, longer⟩ := h.shared shared
      rw [← longer]
      exact ih h within
    | none =>
      obtain ⟨grown, trie, longer⟩ := h.grow inside c
      rw [← longer]
      exact ih trie (by simp [nextState])

/-- A text that is wanted may be spelled from the initial state and accepted. -/
theorem Trie.spellAccepting (h : Trie texts path b) {text : String} (wanted : text ∈ texts) :
    ∃ path', Trie texts path' (b.spellAccepting 0 text) := by
  obtain ⟨path', trie, inside, spelled⟩ := h.spell h.nonempty text.toList
  refine ⟨path', trie.accept inside ?_⟩
  rwa [spelled, h.root, List.nil_append, String.ofList_toList]

theorem Trie.spellAll {b' : Builder} {more : List String} (h : Trie texts path b)
    (wanted : ∀ text ∈ more, text ∈ texts) (spelled : Automaton.spellAll b more = .ok b') :
    ∃ path', Trie texts path' b' := by
  induction more generalizing b path with
  | nil =>
    cases spelled
    exact ⟨path, h⟩
  | cons text more ih =>
    rw [Automaton.spellAll] at spelled
    split at spelled
    · cases spelled
    · obtain ⟨path', trie⟩ := h.spellAccepting (wanted text List.mem_cons_self)
      exact ih trie (fun t ht => wanted t (List.mem_cons_of_mem _ ht)) spelled

theorem states_of_build {a : Automaton} (built : b.build = .ok a) : a.states = b.states := by
  rw [build] at built
  split at built
  · cases built
  · rw [Automaton.ofStates] at built
    split at built
    · split at built
      · cases built
      · split at built <;> cases built
        rfl
    · cases built

end Builder

namespace Automaton

variable {a : Automaton} {texts : List String} {path : Nat → List Char} {b : Builder}
  {q r : Nat} {w : List Char}

/-- A run ends at the path that its text continues. -/
theorem path_of_run (trie : b.Trie texts path) (states : a.states = b.states)
    (run : a.run q w = some r) : path r = path q ++ w := by
  induction w generalizing q with
  | nil =>
    cases run
    exact (List.append_nil _).symm
  | cons c w ih =>
    obtain ⟨t, moves, run⟩ := Option.bind_eq_some_iff.1 run
    obtain ⟨s, there, moves⟩ := Option.bind_eq_some_iff.1 moves
    rw [states] at there
    rw [ih run, (trie.branches q s there).step moves, List.append_assoc, List.singleton_append]

theorem startChain_of_trie (trie : b.Trie texts path) (states : a.states = b.states) :
    a.startChain = [0] := by
  apply a.startChain_of_silent
  rw [startLink, states, Option.bind_eq_none_iff]
  exact fun s there => (trie.branches 0 s there).start

theorem endChain_of_trie (trie : b.Trie texts path) (states : a.states = b.states) (q : Nat) :
    a.endChain q = [] := by
  apply a.endChain_of_silent
  rw [endLink, states, Option.bind_eq_none_iff]
  exact fun s there => (trie.branches q s there).finish

/-- The automaton of literals accepts nothing but its literals, at any place of a text. -/
theorem mem_of_literals (built : literals texts = .ok a) {fresh : Bool}
    (accepts : a.Accepts fresh w ∨ a.AcceptsAtEnd fresh w) : String.ofList w ∈ texts := by
  obtain ⟨b, spelled, built⟩ := exists_of_bind_ok built
  obtain ⟨path, trie⟩ := (Builder.trie_initial texts).spellAll (fun _ h => h) spelled
  have states := Builder.states_of_build built
  have chain := startChain_of_trie trie states
  obtain ⟨q, start, r, run, accepts⟩ | ⟨q, -, r, -, t, link, -⟩ := accepts
  · obtain rfl : q = 0 := by
      rw [starts, chain, ite_self] at start
      exact List.mem_singleton.1 start
    obtain ⟨s, there, accepting⟩ := (Option.any_eq_true _ _).1 accepts
    rw [states] at there
    have wanted := (trie.branches r s there).accepting accepting
    rwa [path_of_run trie states run, trie.root, List.nil_append] at wanted
  · rw [endChain_of_trie trie states] at link
    cases link

end Automaton

end Munch
