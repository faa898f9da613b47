import Munch.Proofs.Recognizing

/-!
# The first unknown source is reported

A building step names the state at which it adds something, its source, and that state may not exist
yet. The builder remembers the first source that is missing when a step is made and reports it in
the end, even if states up to its number are added later. A literal is the one step whose source is
not the state that it names: it follows the transitions that are already there and adds the first of
its own where these end. It adds a state before that transition, and a source that has just the
number of this state is no longer missing then.

## Main definitions

* `Builder.Step.source?`: the state at which a step adds something.
* `Builder.Step.noticed?`: the source, if the builder finds that it is missing.
* `Builder.unknown_performAll`: what the builder remembers after steps.
* `Builder.build_of_steps`: what is built after steps.
-/

namespace Munch

open Automaton (State Edge)

namespace Builder

variable {b : Builder} {q t : Nat} {c : Char}

/-! ## Sources -/

/-- The state, if it is none of the table. -/
def absent? (b : Builder) (q : Nat) : Option Nat := if q < b.states.size then none else some q

/-- The state at which the transitions that spelling shares come to their end, so that it adds one
there. -/
def departure? (b : Builder) (q : Nat) : List Char → Option Nat
  | [] => none
  | c :: cs =>
    match b.shared? q c with
    | some next => b.departure? next cs
    | none => some q

namespace Step

/-- The state at which a step adds a transition or acceptance, if it adds any. -/
def source? (b : Builder) : Step → Option Nat
  | state _ => none
  | accept q | on q _ _ | range q _ _ _ | otherwise q _ | onStart q _ | onEnd q _ => some q
  | anyOf q chars _ | reject q chars => if chars = "" then none else some q
  | literal q text => b.departure? q text.toList

/-- The source of a step, if it is absent when the step is made. -/
def missing? (b : Builder) (s : Step) : Option Nat := (s.source? b).bind b.absent?

/-- The source of a step, if it is absent when the step adds something there. A literal adds a state
before its first transition. -/
def noticed? (b : Builder) (s : Step) : Option Nat :=
  match s with
  | literal .. => (s.source? b).bind (b.addState false).absent?
  | _ => s.missing? b

/-- The step is a literal whose source has the number of the first state that it adds. -/
def slips (b : Builder) : Step → Bool
  | literal q text => b.departure? q text.toList == some b.nextState
  | _ => false

end Step

/-- Each step with the builder that it is performed on. -/
def history (b : Builder) : List Step → List (Builder × Step)
  | [] => []
  | s :: rest => (b, s) :: history (b.perform s).1 rest

/-! ## What is remembered -/

theorem unknown_update (b : Builder) (q : Nat) (change : State → State) :
    (b.update q change).unknown = (b.unknown <|> b.absent? q) := by
  rw [update, absent?]
  split <;> simp

theorem absent?_update (b : Builder) (q : Nat) (change : State → State) :
    (b.update q change).absent? = b.absent? := by
  funext r
  rw [absent?, absent?, size_update]

/-- Several edges miss no more than one. -/
theorem unknown_addEdges (b : Builder) (q : Nat) (target : Option Nat) (chars : String) :
    (chars.toList.foldl (fun b c => b.addEdge q (Edge.single c target)) b).unknown =
      (b.unknown <|> (if chars = "" then none else some q).bind b.absent?) := by
  have empty : chars = "" ↔ chars.toList = [] := by simp
  simp only [empty]
  generalize chars.toList = cs
  induction cs generalizing b with
  | nil => simp
  | cons c cs ih =>
    rw [List.foldl_cons, ih, addEdge, unknown_update, absent?_update]
    cases cs with
    | nil => simp
    | cons d cs => cases b.unknown <;> cases absent : b.absent? q <;> simp [absent]

/-- From here on spelling adds states of its own: the state is there, and its edges are for single
characters and lead back to it. -/
structure Fresh (b : Builder) (q : Nat) : Prop where
  inside : q < b.states.size
  edges : ∀ s, b.states[q]? = some s → ∀ e ∈ s.edges, ∃ c, e = Edge.single c (some q)

/-- The state that spelling adds is fresh, whatever the state at which it adds the transition. -/
theorem fresh_grow (b : Builder) (q : Nat) (c : Char) :
    ((b.addState false).on q c b.nextState).Fresh b.nextState := by
  have added : (b.addState false).states[b.nextState]? = some {} := Array.getElem?_push_size
  refine ⟨by simp [nextState], fun s row e he => ?_⟩
  rw [on, range, addEdge, getElem?_update, added] at row
  split at row
  · cases row
    obtain rfl := List.mem_singleton.1 he
    exact ⟨c, rfl⟩
  · cases row
    cases he

theorem Fresh.shared (h : b.Fresh q) (found : b.shared? q c = some t) : t = q := by
  obtain ⟨s, row, found⟩ := Option.bind_eq_some_iff.1 found
  obtain ⟨e, first, target⟩ := Option.bind_eq_some_iff.1 found
  obtain ⟨d, rfl⟩ := h.edges s row e (List.mem_of_find?_eq_some first)
  cases target
  rfl

/-- Spelling from a fresh state misses nothing. -/
theorem Fresh.unknown_spell (h : b.Fresh q) (cs : List Char) :
    (b.spell q cs).1.unknown = b.unknown := by
  induction cs generalizing b q with
  | nil => rfl
  | cons c cs ih =>
    rw [spell]
    cases found : b.shared? q c with
    | some next =>
      obtain rfl := h.shared found
      exact ih h
    | none =>
      have there : (b.addState false).absent? q = none := by
        simpa [absent?] using Nat.lt_succ_of_lt h.inside
      rw [ih (fresh_grow b q c), on, range, addEdge, unknown_update, there]
      simp [addState]

/-- Spelling misses nothing but the state at which it adds its first transition. -/
theorem unknown_spell (b : Builder) (q : Nat) (cs : List Char) :
    (b.spell q cs).1.unknown =
      (b.unknown <|> (b.departure? q cs).bind (b.addState false).absent?) := by
  induction cs generalizing q with
  | nil => simp [spell, departure?]
  | cons c cs ih =>
    rw [spell, departure?]
    cases b.shared? q c with
    | some next => exact ih next
    | none =>
      rw [(fresh_grow b q c).unknown_spell, on, range, addEdge, unknown_update]
      rfl

/-- A step adds to what is remembered the source that it is noticed to miss. -/
theorem unknown_perform (b : Builder) (s : Step) :
    (b.perform s).1.unknown = (b.unknown <|> s.noticed? b) := by
  cases s with
  | state => simp [perform, addState, Step.noticed?, Step.missing?, Step.source?]
  | accept q => exact unknown_update b q _
  | on q => exact unknown_update b q _
  | range q => exact unknown_update b q _
  | otherwise q => exact unknown_update b q _
  | onStart q => exact unknown_update b q _
  | onEnd q => exact unknown_update b q _
  | anyOf q chars target => exact unknown_addEdges b q (some target) chars
  | reject q chars => exact unknown_addEdges b q none chars
  | literal q text => exact unknown_spell b q text.toList

/-- What is remembered after steps is the first source that was noticed to be missing. -/
theorem unknown_performAll (b : Builder) (steps : List Step) :
    (b.performAll steps).1.unknown =
      (b.unknown <|> (b.history steps).findSome? fun (b, s) => s.noticed? b) := by
  induction steps generalizing b with
  | nil => simp [performAll, history]
  | cons s steps ih =>
    simp only [performAll, history, List.findSome?_cons, ih, unknown_perform]
    cases b.unknown <;> cases s.noticed? b <;> simp

/-- A missing source is noticed unless it slips through. -/
theorem Step.noticed?_eq_missing? {s : Step} (h : s.slips b = false) :
    s.noticed? b = s.missing? b := by
  cases s with
  | literal q text =>
    rw [slips, beq_eq_false_iff_ne] at h
    rw [noticed?, missing?, source?]
    cases departs : b.departure? q text.toList with
    | none => rfl
    | some p =>
      have other : p ≠ b.states.size := fun same => h (by rw [departs, same]; rfl)
      have same : p < b.states.size + 1 ↔ p < b.states.size := by omega
      simp only [Option.bind_some, absent?, size_addState, same]
  | _ => rfl

/-- After any steps, the first source that a step was noticed to miss is reported when the automaton
is built, and if there is none, just the table so far is examined. A source is missing if it is no
state when the step is made, whatever is added later. All of them are noticed, unless a literal adds
a state with the number of its source. -/
theorem build_of_steps (steps : List Step) :
    let b := (initial.performAll steps).1
    let noticed := (initial.history steps).findSome? fun (b, s) => s.noticed? b
    let missing := (initial.history steps).findSome? fun (b, s) => s.missing? b
    (∀ q, noticed = some q → b.build = .error (.unknownState q)) ∧
    (noticed = none → b.build = Automaton.ofStates b.states) ∧
    ((∀ p ∈ initial.history steps, p.2.slips p.1 = false) → noticed = missing) := by
  intro b noticed missing
  have remembered : b.unknown = noticed := unknown_performAll initial steps
  refine ⟨fun q first => ?_, fun none => ?_, fun h => ?_⟩
  · rw [build, remembered, first]
  · rw [build, remembered, none]
  · simp only [noticed, missing, ← List.head?_filterMap]
    congr 1
    exact List.filterMap_congr fun p there => Step.noticed?_eq_missing? (h p there)

/-- A state that is added later was missing when a literal came to it. Where it was there before,
nothing is missing. -/
theorem build_of_steps_added_later :
    let late : List Step := [.on 0 'a' 3, .literal 0 "ab", .state true, .state true, .accept 9]
    let early : List Step := [.on 0 'a' 1, .state false, .literal 0 "ab", .accept 2]
    (initial.performAll late).1.build = .error (.unknownState 3) ∧
    (initial.performAll early).1.build = Automaton.ofStates (initial.performAll early).1.states ∧
    (initial.history early).findSome? (fun (b, s) => s.missing? b) = none := by
  intro late early
  obtain ⟨reported, -, -⟩ := build_of_steps late
  obtain ⟨-, examined, all⟩ := build_of_steps early
  have none : (initial.history early).findSome? (fun (b, s) => s.noticed? b) = none := by
    decide +kernel
  have noticed : ∀ p ∈ initial.history early, p.2.slips p.1 = false := by decide +kernel
  exact ⟨reported 3 (by decide +kernel), examined none, (all noticed).symm.trans none⟩

/-- The first state that the literal adds has the number of its source, which is missing. -/
theorem missing_not_reported :
    let steps : List Step := [.literal 1 "a"]
    (initial.history steps).findSome? (fun (b, s) => s.missing? b) = some 1 ∧
    ∃ a, (initial.performAll steps).1.build = .ok a := by
  intro steps
  exact ⟨by decide +kernel, exists_of_isOk (by decide +kernel)⟩

end Builder
end Munch
