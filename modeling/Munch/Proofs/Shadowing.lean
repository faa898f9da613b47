import Munch.Proofs.UnknownStates

/-!
# Literals in the shadow of other edges

A literal follows the transitions that are already there for exactly one character, and behind them
adds its own. A run takes another rule: of all edges that cover a character, the first decides. So
where a range or a rejection stands in front, the run over the literal may die or go elsewhere, and
the state that the literal gives is not reached. Whether this happens shows in the table before the
literal is spelled: edges that are added later stand behind and decide nothing that was decided, and
a state that the literal adds has no edges of others.

## Main definitions

* `Builder.Clear`: no edge leads a character elsewhere.
* `Builder.Unobstructed`: the way of a literal is clear.
* `Builder.Grows`: edges are added behind those that are there.
* `Builder.run_literal_iff`: a run passes through the states of a literal just if its way is clear.
-/

namespace Munch

open Automaton (State Edge)

/-- The edge is for a single character and does not end the run. -/
def Automaton.Edge.LeadsOn (e : Edge) : Prop := e.low = e.high ∧ ∃ t, e.target = some t

namespace Builder

variable {b b' b'' : Builder} {q next : Nat} {c : Char} {cs : List Char} {e : Edge}

/-! ## What is in the way -/

/-- The edge that decides on a character. -/
def deciding? (b : Builder) (q : Nat) (c : Char) : Option Edge :=
  (b.states[q]?).bind fun s => s.edges.find? (·.covers c)

/-- The edge that decides on the character leads to the given state, if there is one. -/
def Clear (b : Builder) (q : Nat) (c : Char) (next : Nat) : Prop :=
  ∀ e ∈ b.deciding? q c, e.target = some next

/-- The transitions that a literal shares decide on its characters, and so does the first that it
adds. -/
def Unobstructed (b : Builder) (q : Nat) : List Char → Prop
  | [] => True
  | c :: cs =>
    match b.shared? q c with
    | some next => b.Clear q c next ∧ b.Unobstructed next cs
    | none => b.Clear q c b.nextState

/-- What is shared covers the character, so some edge decides. -/
theorem exists_deciding (found : b.shared? q c = some next) : ∃ e, b.deciding? q c = some e := by
  obtain ⟨s, row, found⟩ := Option.bind_eq_some_iff.1 found
  obtain ⟨e, first, -⟩ := Option.bind_eq_some_iff.1 found
  have single : e.low = c ∧ e.high = c := by simpa using List.find?_some first
  rw [deciding?, row, Option.bind_some, ← Option.isSome_iff_exists, List.find?_isSome]
  exact ⟨e, List.mem_of_find?_eq_some first, by simp [Edge.covers, single]⟩

/-- If all edges of a state lead on, what is shared is what decides. -/
theorem shared?_eq (leads : ∀ s, b.states[q]? = some s → ∀ e ∈ s.edges, e.LeadsOn) (c : Char) :
    b.shared? q c = (b.deciding? q c).bind (·.target) := by
  rw [shared?, deciding?]
  cases row : b.states[q]? with
  | none => rfl
  | some s =>
    have same := Automaton.find?_exact (fun e he => (leads s row e he).1) c
    simp only [Option.bind_eq_bind, Option.bind_some, same]

/-- Then nothing stands in front of a literal. -/
theorem clear_of_leadsOn (leads : ∀ s, b.states[q]? = some s → ∀ e ∈ s.edges, e.LeadsOn)
    (aims : ∀ t, b.shared? q c = some t → t = next) : b.Clear q c next := by
  intro e decides
  obtain ⟨s, row, first⟩ := Option.bind_eq_some_iff.1 decides
  obtain ⟨-, t, target⟩ := leads s row e (List.mem_of_find?_eq_some first)
  have shared : b.shared? q c = some t := by
    rw [shared?_eq leads, decides, Option.bind_some, target]
  rw [target, aims t shared]

theorem unobstructed_of_leadsOn (leads : ∀ s ∈ b.states, ∀ e ∈ s.edges, e.LeadsOn) (q : Nat)
    (cs : List Char) : b.Unobstructed q cs := by
  have rows (q : Nat) (s : State) (row : b.states[q]? = some s) : ∀ e ∈ s.edges, e.LeadsOn :=
    leads s (Array.mem_of_getElem? row)
  induction cs generalizing q with
  | nil => trivial
  | cons c cs ih =>
    rw [Unobstructed]
    cases shared : b.shared? q c with
    | some next => exact ⟨clear_of_leadsOn (rows q) (by simp [shared]), ih next⟩
    | none => exact clear_of_leadsOn (rows q) (by simp [shared])

/-- Nothing stands in front of what is spelled from a fresh state. -/
theorem Fresh.unobstructed (h : b.Fresh q) (cs : List Char) : b.Unobstructed q cs := by
  have leads (s : State) (row : b.states[q]? = some s) : ∀ e ∈ s.edges, e.LeadsOn := by
    intro e he
    obtain ⟨c, rfl⟩ := h.edges s row e he
    exact ⟨rfl, q, rfl⟩
  induction cs with
  | nil => trivial
  | cons c cs ih =>
    rw [Unobstructed]
    cases shared : b.shared? q c with
    | some next =>
      obtain rfl := h.shared shared
      exact ⟨clear_of_leadsOn leads (by simp [shared]), ih⟩
    | none => exact clear_of_leadsOn leads (by simp [shared])

/-! ## Later edges stand behind -/

/-- What was missing is still remembered, and what was decided is decided as before. -/
structure Grows (b b' : Builder) : Prop where
  known : b'.unknown = none → b.unknown = none
  decides : ∀ q c e, b.deciding? q c = some e → b'.deciding? q c = some e

theorem Grows.refl (b : Builder) : b.Grows b := ⟨id, fun _ _ _ h => h⟩

theorem Grows.trans (h : b.Grows b') (h' : b'.Grows b'') : b.Grows b'' :=
  ⟨h.known ∘ h'.known, fun q c e decides => h'.decides q c e (h.decides q c e decides)⟩

theorem grows_addState (b : Builder) (accepting : Bool) : b.Grows (b.addState accepting) := by
  refine ⟨id, fun q c e decides => ?_⟩
  obtain ⟨s, row, first⟩ := Option.bind_eq_some_iff.1 decides
  have inside := (Array.getElem?_eq_some_iff.1 row).1
  have row' : (b.addState accepting).states[q]? = some s := by
    rw [addState, Array.getElem?_push_lt inside]
    rwa [Array.getElem?_eq_getElem inside] at row
  rw [deciding?, row']
  exact first

theorem grows_update (b : Builder) (q : Nat) {change : State → State}
    (behind : ∀ s, s.edges <+: (change s).edges) : b.Grows (b.update q change) := by
  refine ⟨fun known => ?_, fun r c e decides => ?_⟩
  · have both : b.unknown = none ∧ b.absent? q = none := by simpa [unknown_update] using known
    exact both.1
  · obtain ⟨s, row, first⟩ := Option.bind_eq_some_iff.1 decides
    rw [deciding?, getElem?_update, row]
    split
    · exact (behind s).find?_eq_some first
    · exact first

theorem grows_addEdge (b : Builder) (q : Nat) (e : Edge) : b.Grows (b.addEdge q e) :=
  grows_update b q fun s => List.prefix_append s.edges [e]

theorem grows_addEdges (b : Builder) (q : Nat) (edge : Char → Edge) (cs : List Char) :
    b.Grows (cs.foldl (fun b c => b.addEdge q (edge c)) b) := by
  induction cs generalizing b with
  | nil => exact .refl b
  | cons c cs ih => exact (grows_addEdge b q (edge c)).trans (ih _)

theorem grows_spell (b : Builder) (q : Nat) (cs : List Char) : b.Grows (b.spell q cs).1 := by
  induction cs generalizing b q with
  | nil => exact .refl b
  | cons c cs ih =>
    rw [spell]
    cases b.shared? q c with
    | some next => exact ih b next
    | none => exact ((grows_addState b false).trans (grows_addEdge _ q _)).trans (ih _ _)

theorem grows_perform (b : Builder) (s : Step) : b.Grows (b.perform s).1 := by
  have kept (q : Nat) {change : State → State} (same : ∀ s, (change s).edges = s.edges) :
      b.Grows (b.update q change) :=
    grows_update b q fun s => same s ▸ List.prefix_rfl
  cases s with
  | state accepting => exact grows_addState b accepting
  | accept q => exact kept q fun _ => rfl
  | on q => exact grows_addEdge b q _
  | range q => exact grows_addEdge b q _
  | anyOf q chars target => exact grows_addEdges b q (Edge.single · (some target)) _
  | reject q chars => exact grows_addEdges b q (Edge.single · none) _
  | otherwise q => exact kept q fun _ => rfl
  | onStart q => exact kept q fun _ => rfl
  | onEnd q => exact kept q fun _ => rfl
  | literal q text => exact grows_spell b q _

theorem grows_performAll (b : Builder) (steps : List Step) : b.Grows (b.performAll steps).1 := by
  induction steps generalizing b with
  | nil => exact .refl b
  | cons s steps ih => exact (grows_perform b s).trans (ih _)

/-! ## Runs over literals -/

variable {a : Automaton}

theorem step_of_deciding (states : a.states = b.states) (decides : b.deciding? q c = some e) :
    a.step q c = e.target := by
  obtain ⟨s, row, first⟩ := Option.bind_eq_some_iff.1 decides
  rw [Automaton.step, states, row, Option.bind_some, State.step, first]

/-- A run takes a transition that is shared just if nothing stands in front of it. -/
theorem step_shared (shared : b.shared? q c = some next) (grows : b.Grows b')
    (states : a.states = b'.states) : a.step q c = some next ↔ b.Clear q c next := by
  obtain ⟨e, decides⟩ := exists_deciding shared
  rw [step_of_deciding states (grows.decides q c e decides)]
  simp [Clear, decides]

theorem deciding?_addState (b : Builder) (accepting : Bool) (q : Nat) (c : Char) :
    (b.addState accepting).deciding? q c = b.deciding? q c := by
  rw [deciding?, deciding?, addState, Array.getElem?_push]
  split
  · next new => simp [new]
  · rfl

/-- The edge that is added decides if none did before. -/
theorem deciding?_addEdge (inside : q < b.states.size) (c : Char) (target : Option Nat) :
    (b.addEdge q (Edge.single c target)).deciding? q c =
      some ((b.deciding? q c).getD (Edge.single c target)) := by
  rw [deciding?, deciding?, addEdge, getElem?_update, if_pos rfl,
    Array.getElem?_eq_getElem inside, Option.map_some, Option.bind_some, Option.bind_some,
    List.find?_append]
  cases (b.states[q]).edges.find? (·.covers c) <;> simp

/-- A run takes a transition that is added just if nothing stands in front of it. -/
theorem step_grow (grows : ((b.addState false).on q c b.nextState).Grows b')
    (known : b'.unknown = none) (states : a.states = b'.states) :
    a.step q c = some b.nextState ↔ b.Clear q c b.nextState := by
  have there : (b.addState false).absent? q = none := by
    have known := grows.known known
    rw [on, range, addEdge, unknown_update] at known
    simp only [Option.orElse_eq_orElse, Option.orElse_eq_or, Option.or_eq_none_iff] at known
    exact known.2
  have inside : q < (b.addState false).states.size := by simpa [absent?] using there
  have decides := deciding?_addEdge inside c (some b.nextState)
  rw [deciding?_addState] at decides
  rw [step_of_deciding states (grows.decides q c _ decides), Clear]
  cases b.deciding? q c <;> simp

/-- A run passes through given states along a text, the first move apart. -/
theorem run_prefixes_iff (a : Automaton) (c : Char) (cs : List Char) {f g : List Char → Nat}
    (later : ∀ u, f (c :: u) = g u) :
    (∀ u, u <+: c :: cs → a.run (f []) u = some (f u)) ↔
      a.step (f []) c = some (g []) ∧ ∀ u, u <+: cs → a.run (g []) u = some (g u) := by
  constructor
  · intro passes
    have moves : a.step (f []) c = some (g []) := by
      have run := passes [c] (List.prefix_append [c] cs)
      rw [later, Automaton.run_cons] at run
      simpa using run
    refine ⟨moves, fun u fits => ?_⟩
    have run := passes (c :: u) ((List.prefix_cons_inj c).2 fits)
    rwa [later, Automaton.run_cons, moves, Option.bind_some] at run
  · rintro ⟨moves, passes⟩ u fits
    cases u with
    | nil => rfl
    | cons d u =>
      obtain ⟨rfl, behind⟩ := List.cons_prefix_cons.1 fits
      rw [later, Automaton.run_cons, moves, Option.bind_some, passes u behind]

theorem spell_of_shared (shared : b.shared? q c = some next) (cs : List Char) :
    b.spell q (c :: cs) = b.spell next cs := by rw [spell, shared]

theorem spell_of_stuck (stuck : b.shared? q c = none) (cs : List Char) :
    b.spell q (c :: cs) = ((b.addState false).on q c b.nextState).spell b.nextState cs := by
  rw [spell, stuck]

/-- A run passes through the states that are spelled just if the way is clear. -/
theorem unobstructed_iff (grows : (b.spell q cs).1.Grows b') (known : b'.unknown = none)
    (states : a.states = b'.states) :
    b.Unobstructed q cs ↔ ∀ u, u <+: cs → a.run q u = some (b.spell q u).2 := by
  induction cs generalizing b q with
  | nil => simp [Unobstructed, spell]
  | cons c cs ih =>
    rw [Unobstructed]
    cases shared : b.shared? q c with
    | some next =>
      rw [spell_of_shared shared] at grows
      have passes := run_prefixes_iff a c cs (f := fun u => (b.spell q u).2)
        (g := fun u => (b.spell next u).2) fun u => by rw [spell_of_shared shared]
      have moves := step_shared shared ((grows_spell b next cs).trans grows) states
      exact (and_congr moves.symm (ih grows)).trans passes.symm
    | none =>
      rw [spell_of_stuck shared] at grows
      have passes := run_prefixes_iff a c cs (f := fun u => (b.spell q u).2)
        (g := fun u => (((b.addState false).on q c b.nextState).spell b.nextState u).2)
        fun u => by rw [spell_of_stuck shared]
      have moves := step_grow ((grows_spell _ b.nextState cs).trans grows) known states
      have behind := (ih grows).1 ((fresh_grow b q c).unobstructed cs)
      exact (moves.symm.trans (and_iff_left behind).symm).trans passes.symm

/-- Let a literal be spelled from any state of a builder, whatever steps were made before and are
made behind. A run of the automaton that is built passes through the states of the literal, one
after another up to the state that it gives, just if nothing stood in the way of the literal in the
table before it. Fallbacks, acceptance, silent links and edges for single characters never do. -/
theorem run_literal_iff (b : Builder) (q : Nat) (text : String) (later : List Step)
    {b' : Builder} {final : Option Nat} {a : Automaton}
    (spelled : b.perform (.literal q text) = (b', final))
    (built : (b'.performAll later).1.build = .ok a) :
    (b.Unobstructed q text.toList → a.run q text.toList = final) ∧
    (b.Unobstructed q text.toList ↔
      ∀ u, u <+: text.toList → a.run q u = some (b.spell q u).2) ∧
    ((∀ s ∈ b.states, ∀ e ∈ s.edges, e.LeadsOn) → b.Unobstructed q text.toList) := by
  cases spelled
  have known : ((b.spell q text.toList).1.performAll later).1.unknown = none := by
    rw [build] at built
    split at built
    · cases built
    · assumption
  have passes := unobstructed_iff (grows_performAll _ later) known (states_of_build built)
  exact ⟨fun clear => passes.1 clear _ List.prefix_rfl, passes,
    fun leads => unobstructed_of_leadsOn leads q _⟩

/-- A rejection and a range stand beside the way, and a range that comes later stands behind. -/
theorem run_literal_iff_beside_range :
    let before : List Step :=
      [.state false, .reject 0 "x", .on 0 'a' 1, .range 1 'c' 'z' 0, .otherwise 1 0]
    let b := (initial.performAll before).1
    let later : List Step := [.range 1 'a' 'z' 0, .accept 2]
    ∃ b' a, b.perform (.literal 0 "ab") = (b', some 2) ∧ (b'.performAll later).1.build = .ok a ∧
      a.run 0 ['a', 'b'] = some 2 := by
  intro before b later
  have final : (b.perform (.literal 0 "ab")).2 = some 2 := by decide +kernel
  have spelled : b.perform (.literal 0 "ab") = ((b.perform (.literal 0 "ab")).1, some 2) :=
    Prod.ext rfl final
  obtain ⟨a, built⟩ : ∃ a, ((b.perform (.literal 0 "ab")).1.performAll later).1.build = .ok a :=
    exists_of_isOk (by decide +kernel)
  have clear : b.Unobstructed 0 ['a', 'b'] := by
    have first : b.shared? 0 'a' = some 1 := by decide +kernel
    have second : b.shared? 1 'b' = none := by decide +kernel
    simp only [Unobstructed, first, second, Clear]
    decide +kernel
  exact ⟨_, a, spelled, built, (run_literal_iff b 0 "ab" later spelled built).1 clear⟩

/-- The literal adds its transition behind a rejection of the same character. -/
theorem literal_not_reached :
    let b := (initial.performAll [.reject 0 "a"]).1
    0 < b.nextState ∧ (b.perform (.literal 0 "a")).2 = some 1 ∧
      ∃ a, (b.perform (.literal 0 "a")).1.build = .ok a ∧ a.run 0 ['a'] = none := by
  intro b
  obtain ⟨a, built⟩ : ∃ a, (b.perform (.literal 0 "a")).1.build = .ok a :=
    exists_of_isOk (by decide +kernel)
  have decides : (b.perform (.literal 0 "a")).1.deciding? 0 'a' = some (Edge.single 'a' none) := by
    decide +kernel
  refine ⟨by decide +kernel, by decide +kernel, a, built, ?_⟩
  rw [Automaton.run_cons, step_of_deciding (states_of_build built) decides]
  rfl

end Builder
end Munch
