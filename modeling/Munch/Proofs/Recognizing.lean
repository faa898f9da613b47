import Mathlib.Data.List.Find
import Munch.Proofs.Literals

/-!
# The language of an automaton, read off its table

An automaton without silent links starts every run in its initial state, so what it accepts is what
leads from there to an accepting state. That is computed row by row: a row decides on the first
character, and the language of the next row on the others. The two ready-made shapes are settled
here once and for all: literals are exactly the texts that were spelled, and one or more characters
of a set are just that.

## Main definitions

* `Automaton.AcceptsFrom`: the texts that lead from a state to an accepting one.
* `Automaton.Recognizes`: the automaton accepts just these texts, at any place.
* `Automaton.recognizes_oneOrMore`, `Automaton.recognizes_literals`: the ready-made shapes.
-/

namespace Munch

namespace Automaton

/-- An edge on a single character. -/
def Edge.single (c : Char) (target : Option Nat) : Edge := ⟨c, c, target⟩

@[simp] theorem Edge.covers_single (c d : Char) (target : Option Nat) :
    (Edge.single c target).covers d = decide (d = c) := by
  rw [Edge.covers, ← Bool.decide_and, decide_eq_decide]
  constructor
  · rintro ⟨above, below⟩
    exact Char.le_antisymm below above
  · rintro rfl
    exact ⟨Char.le_refl d, Char.le_refl d⟩

/-- Among edges for single characters, the first for exactly one is the first that covers it. -/
theorem find?_exact {edges : List Edge} (single : ∀ e ∈ edges, e.low = e.high) (c : Char) :
    edges.find? (fun e => decide (e.low = c ∧ e.high = c)) = edges.find? (·.covers c) := by
  refine List.find?_congr fun e he => ?_
  obtain ⟨low, high, target⟩ := e
  obtain rfl : low = high := single _ he
  have covers := Edge.covers_single low c target
  rw [Edge.single] at covers
  simp [covers, eq_comm]

@[simp] theorem Edge.target_single (c : Char) (target : Option Nat) :
    (Edge.single c target).target = target := rfl

/-- The first edges of a row lead from each character of a set to the same state. -/
theorem State.step_of_group {s : State} (cs : List Char) (target : Option Nat) (more : List Edge)
    (edges : s.edges = cs.map (Edge.single · target) ++ more) (c : Char) :
    s.step c = if c ∈ cs then target else State.step { s with edges := more } c := by
  rw [State.step, edges]
  clear edges
  induction cs with
  | nil => simp [State.step]
  | cons d cs ih =>
    rw [List.map_cons, List.cons_append, List.find?_cons, Edge.covers_single]
    by_cases here : c = d
    · simp [here, Edge.single]
    · simpa [here] using ih

/-- A row without edges takes the fallback. -/
theorem State.step_of_no_edges {s : State} (edges : s.edges = []) (c : Char) :
    s.step c = s.otherwise := by
  rw [State.step, edges]
  rfl

variable (a : Automaton)

/-- The text leads from the state to an accepting one. -/
def AcceptsFrom (q : Nat) (w : List Char) : Prop := ∃ r ∈ a.run q w, a.accepts r

@[simp] theorem acceptsFrom_nil (q : Nat) : a.AcceptsFrom q [] ↔ a.accepts q = true := by
  simp [AcceptsFrom]

theorem acceptsFrom_cons (q : Nat) (c : Char) (w : List Char) :
    a.AcceptsFrom q (c :: w) ↔ ∃ t ∈ a.step q c, a.AcceptsFrom t w := by
  simp only [AcceptsFrom, run_cons, Option.mem_def, Option.bind_eq_some_iff]
  constructor
  · rintro ⟨r, ⟨t, moves, run⟩, accepts⟩
    exact ⟨t, moves, r, run, accepts⟩
  · rintro ⟨t, moves, r, run, accepts⟩
    exact ⟨r, ⟨t, moves, run⟩, accepts⟩

variable {a} {q : Nat} {s : State}

theorem step_of_row (row : a.states[q]? = some s) (c : Char) : a.step q c = s.step c := by
  rw [step, row, Option.bind_some]

theorem accepts_of_row (row : a.states[q]? = some s) : a.accepts q = s.accepting := by
  rw [accepts, acceptsAt, row, Option.any_some]

/-- The automaton accepts just these texts, wherever in a text the run starts and ends. -/
structure Recognizes (a : Automaton) (L : List Char → Prop) : Prop where
  accepts : ∀ fresh w, a.Accepts fresh w ↔ L w
  atEnd : ∀ fresh w, ¬a.AcceptsAtEnd fresh w

theorem Recognizes.congr {L M : List Char → Prop} (h : a.Recognizes L)
    (same : ∀ w, L w ↔ M w) : a.Recognizes M :=
  ⟨fun fresh w => (h.accepts fresh w).trans (same w), h.atEnd⟩

/-- Without silent links every run starts in the initial state, and ends where it is. -/
theorem recognizes_of_silent (silent : ∀ s ∈ a.states, s.start = none ∧ s.finish = none)
    {L : List Char → Prop} (language : ∀ w, a.AcceptsFrom 0 w ↔ L w) : a.Recognizes L := by
  have start : a.startChain = [0] := by
    apply a.startChain_of_silent
    rw [startLink, Option.bind_eq_none_iff]
    exact fun s row => (silent s (Array.mem_of_getElem? row)).1
  have finish (q : Nat) : a.endChain q = [] := by
    apply a.endChain_of_silent
    rw [endLink, Option.bind_eq_none_iff]
    exact fun s row => (silent s (Array.mem_of_getElem? row)).2
  have starts (fresh : Bool) : a.starts fresh = [0] := by
    rw [Automaton.starts, start, ite_self]
  constructor
  · intro fresh w
    rw [← language, Accepts, starts]
    simp [AcceptsFrom]
  · rintro fresh w ⟨q, -, r, -, t, link, -⟩
    rw [finish] at link
    cases link

end Automaton

open Automaton (State Edge)

/-! ## One or more characters of a set -/

namespace Builder

variable {b : Builder} {q : Nat}

theorem getElem?_update (b : Builder) (q : Nat) (change : State → State) (r : Nat) :
    (b.update q change).states[r]? =
      if q = r then (b.states[r]?).map change else b.states[r]? := by
  rw [update]
  split
  · rw [Array.getElem?_modify]
  · next outside =>
    split
    · next same => simp [← same, outside]
    · rfl

/-- A set of characters is a group of edges behind those of the state. -/
theorem getElem?_anyOf (b : Builder) (q : Nat) (chars : String) (t r : Nat) :
    (b.anyOf q chars t).states[r]? = if q = r then (b.states[r]?).map fun s =>
        { s with edges := s.edges ++ chars.toList.map (Edge.single · (some t)) }
      else b.states[r]? := by
  rw [anyOf]
  generalize chars.toList = cs
  induction cs generalizing b with
  | nil => simp
  | cons c cs ih =>
    have first :=
      getElem?_update b q (fun s => { s with edges := s.edges ++ [⟨c, c, some t⟩] }) r
    rw [List.foldl_cons, ih, on, range, addEdge, first]
    split
    · rw [Option.map_map]
      congr 1
      funext s
      simp [Edge.single]
    · rfl

theorem size_anyOf (b : Builder) (q : Nat) (chars : String) (t : Nat) :
    (b.anyOf q chars t).states.size = b.states.size := by
  rw [anyOf]
  generalize chars.toList = cs
  induction cs generalizing b with
  | nil => rfl
  | cons c cs ih => rw [List.foldl_cons, ih, size_on]

end Builder

namespace Automaton

variable {a : Automaton}

/-- The ready-made automaton for a set of characters accepts nonempty texts of these characters. -/
theorem recognizes_oneOrMore {chars : String} (built : oneOrMore chars = .ok a) :
    a.Recognizes fun w => w ≠ [] ∧ ∀ c ∈ w, c ∈ chars.toList := by
  rw [oneOrMore] at built
  split at built
  · cases built
  have states := Builder.states_of_build built
  have size : a.states.size = 2 := by
    rw [states, Builder.size_anyOf, Builder.size_anyOf]
    rfl
  have row0 : a.states[0]? = some { edges := chars.toList.map (Edge.single · (some 1)) } := by
    rw [states, Builder.getElem?_anyOf, if_neg (by decide), Builder.getElem?_anyOf, if_pos rfl]
    rfl
  have row1 : a.states[1]? =
      some { accepting := true, edges := chars.toList.map (Edge.single · (some 1)) } := by
    rw [states, Builder.getElem?_anyOf, if_pos rfl, Builder.getElem?_anyOf, if_neg (by decide)]
    rfl
  have moves (q : Nat) (inside : q < 2) (c : Char) :
      a.step q c = if c ∈ chars.toList then some 1 else none := by
    match q with
    | 0 => rw [step_of_row row0, State.step_of_group _ _ [] (List.append_nil _).symm]; rfl
    | 1 => rw [step_of_row row1, State.step_of_group _ _ [] (List.append_nil _).symm]; rfl
  have behind (w : List Char) : a.AcceptsFrom 1 w ↔ ∀ c ∈ w, c ∈ chars.toList := by
    induction w with
    | nil => simp [accepts_of_row row1]
    | cons c w ih =>
      rw [acceptsFrom_cons, moves 1 (by decide)]
      split <;> simp_all
  apply recognizes_of_silent
  · intro s there
    obtain ⟨q, row⟩ := Array.mem_iff_getElem?.1 there
    match q with
    | 0 => rw [row0] at row; cases row; exact ⟨rfl, rfl⟩
    | 1 => rw [row1] at row; cases row; exact ⟨rfl, rfl⟩
    | q + 2 => simp [size] at row
  · intro w
    cases w with
    | nil => simp [accepts_of_row row0]
    | cons c w =>
      rw [acceptsFrom_cons, moves 0 (by decide)]
      split <;> simp_all

end Automaton

/-! ## Literals -/

/-- A trie decides on a character by the edges that it has for it, then by one that is added. -/
theorem Automaton.State.Branches.step_append {texts : List String} {path : Nat → List Char}
    {n q t : Nat} {s : State} (h : s.Branches texts path n q) (c d : Char) :
    State.step { s with edges := s.edges ++ [⟨c, c, some t⟩] } d =
      (s.step d <|> if d = c then some t else none) := by
  simp only [State.step, List.find?_append]
  cases found : s.edges.find? (·.covers d) with
  | some e =>
    obtain ⟨-, t', -, target, -⟩ := h.edges e (List.mem_of_find?_eq_some found)
    simp [target]
  | none =>
    have covers : Edge.covers ⟨c, c, some t⟩ d = decide (d = c) := Edge.covers_single c d _
    rw [Option.none_or, List.find?_cons, covers]
    by_cases same : d = c <;> simp [h.otherwise, same]

namespace Builder

variable {texts : List String} {path : Nat → List Char} {b b' b'' : Builder} {q t : Nat} {c : Char}

/-- The move of a state of the table under construction. -/
def move (b : Builder) (q : Nat) (c : Char) : Option Nat := (b.states[q]?).bind (·.step c)

/-- Moves along the characters lead from one state to the other. -/
def Spelled (b : Builder) (q : Nat) : List Char → Nat → Prop
  | [], t => q = t
  | c :: cs, t => ∃ r, b.move q c = some r ∧ Spelled b r cs t

/-- What was spelled and accepted still is. -/
structure Extends (b b' : Builder) : Prop where
  moves : ∀ q c t, b.move q c = some t → b'.move q c = some t
  accepts : ∀ q, Automaton.acceptsAt b.states q = true → Automaton.acceptsAt b'.states q = true

theorem Extends.refl (b : Builder) : b.Extends b := ⟨fun _ _ _ h => h, fun _ h => h⟩

theorem Extends.trans (h : b.Extends b') (h' : b'.Extends b'') : b.Extends b'' :=
  ⟨fun q c t moves => h'.moves q c t (h.moves q c t moves),
    fun q accepts => h'.accepts q (h.accepts q accepts)⟩

theorem Extends.spelled (h : b.Extends b') {cs : List Char} (spelled : b.Spelled q cs t) :
    b'.Spelled q cs t := by
  induction cs generalizing q with
  | nil => exact spelled
  | cons c cs ih =>
    obtain ⟨r, moves, spelled⟩ := spelled
    exact ⟨r, h.moves q c r moves, ih spelled⟩

theorem extends_addState (b : Builder) (accepting : Bool) : b.Extends (b.addState accepting) := by
  have kept (q : Nat) (s : State) (row : b.states[q]? = some s) :
      (b.addState accepting).states[q]? = some s := by
    have inside := (Array.getElem?_eq_some_iff.1 row).1
    rw [addState, Array.getElem?_push_lt inside]
    rwa [Array.getElem?_eq_getElem inside] at row
  constructor
  · intro q c t moves
    obtain ⟨s, row, moves⟩ := Option.bind_eq_some_iff.1 moves
    rw [move, kept q s row]
    exact moves
  · intro q accepts
    obtain ⟨s, row, accepts⟩ := (Option.any_eq_true _ _).1 accepts
    rw [Automaton.acceptsAt, kept q s row]
    exact accepts

theorem extends_update {change : State → State}
    (moves : ∀ s, b.states[q]? = some s → ∀ c t, s.step c = some t → (change s).step c = some t)
    (accepts : ∀ s : State, s.accepting = true → (change s).accepting = true) :
    b.Extends (b.update q change) := by
  constructor
  · intro r c t before
    obtain ⟨s, row, moved⟩ := Option.bind_eq_some_iff.1 before
    rw [move, getElem?_update, row]
    split
    · next here =>
      subst here
      exact moves s row c t moved
    · exact moved
  · intro r before
    obtain ⟨s, row, before⟩ := (Option.any_eq_true _ _).1 before
    rw [Automaton.acceptsAt, getElem?_update, row]
    split
    · exact accepts s before
    · exact before

/-- In a trie the transition that is shared is the move on the character. -/
theorem Trie.shared?_eq_move (h : Trie texts path b) (q : Nat) (c : Char) :
    b.shared? q c = b.move q c := by
  rw [shared?, move]
  cases row : b.states[q]? with
  | none => rfl
  | some s =>
    have branches := h.branches q s row
    have same := Automaton.find?_exact (fun e he => (branches.edges e he).1) c
    simp only [Option.bind_eq_bind, Option.bind_some, State.step, same, branches.otherwise]
    cases s.edges.find? (·.covers c) <;> rfl

/-- A new state is reached on the character that it was added for. -/
theorem Trie.extends_grow (h : Trie texts path b) (inside : q < b.states.size)
    (stuck : b.move q c = none) : b.Extends ((b.addState false).on q c b.nextState) ∧
      ((b.addState false).on q c b.nextState).move q c = some b.nextState := by
  have inside' : q < (b.addState false).states.size := by
    rw [size_addState]
    exact Nat.lt_succ_of_lt inside
  have trie := h.addState []
  constructor
  · refine (extends_addState b false).trans (extends_update ?_ fun _ accepts => accepts)
    intro s row d t moves
    rw [(trie.branches q s row).step_append, moves]
    rfl
  · obtain ⟨s, row⟩ : ∃ s, b.states[q]? = some s := ⟨_, Array.getElem?_eq_getElem inside⟩
    have row' : (b.addState false).states[q]? = some s := by
      rw [Builder.addState, Array.getElem?_push_lt inside]
      rwa [Array.getElem?_eq_getElem inside] at row
    rw [move, row, Option.bind_some] at stuck
    rw [move, Builder.on, range, addEdge, getElem?_update, if_pos rfl, row',
      Option.map_some, Option.bind_some, (h.branches q s row).step_append, stuck, if_pos rfl]
    rfl

/-- Spelling characters keeps what was spelled, and spells them. -/
theorem Trie.spelled_spell (h : Trie texts path b) (inside : q < b.states.size) (cs : List Char) :
    b.Extends (b.spell q cs).1 ∧ (b.spell q cs).1.Spelled q cs (b.spell q cs).2 := by
  induction cs generalizing b q path with
  | nil => exact ⟨.refl b, rfl⟩
  | cons c cs ih =>
    rw [Builder.spell]
    cases shared : b.shared? q c with
    | some next =>
      obtain ⟨kept, spelled⟩ := ih h (h.shared shared).1
      rw [h.shared?_eq_move] at shared
      exact ⟨kept, next, kept.moves q c next shared, spelled⟩
    | none =>
      rw [h.shared?_eq_move] at shared
      obtain ⟨first, moves⟩ := h.extends_grow inside shared
      obtain ⟨grown, trie, -⟩ := h.grow inside c
      have within : b.nextState < ((b.addState false).on q c b.nextState).states.size := by
        simp [nextState]
      obtain ⟨kept, spelled⟩ := ih trie within
      exact ⟨first.trans kept, b.nextState, kept.moves q c _ moves, spelled⟩

/-- The text leads from the initial state to an accepting one. -/
def Reads (b : Builder) (text : String) : Prop :=
  ∃ t, b.Spelled 0 text.toList t ∧ Automaton.acceptsAt b.states t = true

theorem Extends.reads (h : b.Extends b') {text : String} (reads : b.Reads text) :
    b'.Reads text := by
  obtain ⟨t, spelled, accepts⟩ := reads
  exact ⟨t, h.spelled spelled, h.accepts t accepts⟩

theorem Trie.reads_spellAccepting (h : Trie texts path b) (text : String) :
    b.Extends (b.spellAccepting 0 text) ∧ (b.spellAccepting 0 text).Reads text := by
  obtain ⟨kept, spelled⟩ := h.spelled_spell h.nonempty text.toList
  obtain ⟨path', trie, inside, -⟩ := h.spell h.nonempty text.toList
  have last : (b.spell 0 text.toList).1.Extends (b.spellAccepting 0 text) :=
    extends_update (fun _ _ _ _ moves => moves) fun _ _ => rfl
  refine ⟨kept.trans last, _, last.spelled spelled, ?_⟩
  simp only [Builder.spellAccepting, Builder.accept, Automaton.acceptsAt,
    getElem?_update, Array.getElem?_eq_getElem inside, if_pos]
  rfl

/-- Every literal that is spelled stays spelled. -/
theorem Trie.reads_spellAll {more : List String} (h : Trie texts path b)
    (wanted : ∀ text ∈ more, text ∈ texts) (spelled : Automaton.spellAll b more = .ok b') :
    b.Extends b' ∧ ∀ text ∈ more, b'.Reads text := by
  induction more generalizing b path with
  | nil =>
    cases spelled
    exact ⟨.refl _, nofun⟩
  | cons text more ih =>
    rw [Automaton.spellAll] at spelled
    split at spelled
    · cases spelled
    · obtain ⟨first, reads⟩ := h.reads_spellAccepting text
      obtain ⟨path', trie⟩ := h.spellAccepting (wanted text List.mem_cons_self)
      obtain ⟨kept, others⟩ := ih trie (fun t ht => wanted t (List.mem_cons_of_mem _ ht)) spelled
      exact ⟨first.trans kept, List.forall_mem_cons.2 ⟨kept.reads reads, others⟩⟩

/-- A run in the automaton that was built follows the moves of the builder. -/
theorem Spelled.run {a : Automaton} (states : a.states = b.states) {cs : List Char}
    (h : b.Spelled q cs t) : a.run q cs = some t := by
  induction cs generalizing q with
  | nil => exact congrArg some h
  | cons c cs ih =>
    obtain ⟨r, moves, rest⟩ := h
    rw [Automaton.run_cons, Automaton.step, states, ← move, moves, Option.bind_some, ih rest]

end Builder

/-- The automaton of literals accepts its literals and nothing else. -/
theorem Automaton.recognizes_literals {a : Automaton} {texts : List String}
    (built : literals texts = .ok a) : a.Recognizes fun w => String.ofList w ∈ texts := by
  have sound (w : List Char) (accepts : a.AcceptsFrom 0 w) (starts : 0 ∈ a.starts false) :
      String.ofList w ∈ texts := mem_of_literals built (.inl ⟨0, starts, accepts⟩)
  obtain ⟨b, spelled, built⟩ := exists_of_bind_ok built
  have root := Builder.trie_initial texts
  obtain ⟨path, trie⟩ := root.spellAll (fun _ h => h) spelled
  obtain ⟨-, reads⟩ := root.reads_spellAll (fun _ h => h) spelled
  have states := Builder.states_of_build built
  apply recognizes_of_silent
  · intro s there
    obtain ⟨q, row⟩ := Array.mem_iff_getElem?.1 there
    rw [states] at row
    exact ⟨(trie.branches q s row).start, (trie.branches q s row).finish⟩
  · intro w
    constructor
    · exact fun accepts => sound w accepts List.mem_cons_self
    · intro wanted
      obtain ⟨t, spelled, accepts⟩ := reads _ wanted
      rw [String.toList_ofList] at spelled
      exact ⟨t, spelled.run states, by rwa [Automaton.accepts, states]⟩

end Munch
