import Mathlib.Data.List.Perm.Subperm
import Munch.Automaton.Basic

/-!
# Walks along silent links

A walk follows links until there is none or a state comes up again. `Automaton.walk` allows it
as many steps as the table has states. Here the walk is told without such an allowance, and the
allowance is shown to suffice, because the states met so far are different states of the table.
So a walk ends of itself, however the links run in circles.

## Main definitions

* `Automaton.Walks`: a walk that has come to its end.
* `Automaton.walks_startChain`, `Automaton.walks_endChain`: the chains of an automaton are walks.
-/

namespace Munch.Automaton

/-- A walk from a first state, past states already seen, comes to its end. -/
inductive Walks (link : Nat → Option Nat) : List Nat → Option Nat → List Nat → Prop where
  | finished (seen : List Nat) : Walks link seen none []
  | again {seen : List Nat} {q : Nat} : q ∈ seen → Walks link seen (some q) []
  | visit {seen path : List Nat} {q : Nat} : q ∉ seen → Walks link (q :: seen) (link q) path →
    Walks link seen (some q) (q :: path)

variable {link : Nat → Option Nat} {n : Nat} {seen path : List Nat} {first : Option Nat}

/-- Different states of a table are no more than it has. -/
theorem length_le_of_nodup (nodup : seen.Nodup) (inside : ∀ q ∈ seen, q < n) :
    seen.length ≤ n := by
  have subset : seen ⊆ List.range n := fun q hq => List.mem_range.2 (inside q hq)
  simpa using (List.subperm_of_subset nodup subset).length_le

/-- A walk meets different states, none of them seen before. -/
theorem Walks.length_le (h : Walks link seen first path) (links : ∀ p, ∀ q ∈ link p, q < n)
    (nodup : seen.Nodup) (inside : ∀ q ∈ seen, q < n) (hf : ∀ q ∈ first, q < n) :
    path.length + seen.length ≤ n := by
  induction h with
  | finished seen => simpa using length_le_of_nodup nodup inside
  | again => simpa using length_le_of_nodup nodup inside
  | @visit seen path q new _ ih =>
    have inside' : ∀ r ∈ q :: seen, r < n := by
      simpa using ⟨hf q rfl, inside⟩
    have := ih (List.nodup_cons.2 ⟨new, nodup⟩) inside' (links q)
    simp only [List.length_cons] at this ⊢
    omega

/-- A walk with as many steps as the table has unseen states is never cut short. -/
theorem walks_walk (links : ∀ p, ∀ q ∈ link p, q < n) {fuel : Nat} (nodup : seen.Nodup)
    (inside : ∀ q ∈ seen, q < n) (hf : ∀ q ∈ first, q < n) (enough : n ≤ fuel + seen.length) :
    Walks link seen first (walk link fuel seen first) := by
  induction fuel generalizing seen first with
  | zero =>
    cases first with
    | none => exact .finished seen
    | some q =>
      by_cases old : q ∈ seen
      · exact .again old
      · have := length_le_of_nodup (List.nodup_cons.2 ⟨old, nodup⟩)
          (by simpa using ⟨hf q rfl, inside⟩)
        simp only [List.length_cons] at this
        omega
  | succ fuel ih =>
    cases first with
    | none => exact .finished seen
    | some q =>
      by_cases old : q ∈ seen
      · rw [walk, if_pos old]
        exact .again old
      · rw [walk, if_neg old]
        refine .visit old (ih (List.nodup_cons.2 ⟨old, nodup⟩) ?_ (links q) ?_)
        · simpa using ⟨hf q rfl, inside⟩
        · simp only [List.length_cons]
          omega

variable (a : Automaton)

theorem startLink_lt_size (p : Nat) : ∀ q ∈ startLink a.states p, q < a.size := by
  intro q hq
  obtain ⟨s, hs, hq⟩ := Option.bind_eq_some_iff.1 hq
  exact (a.state_wellFormed hs).2.1 q hq

theorem endLink_lt_size (p : Nat) : ∀ q ∈ endLink a.states p, q < a.size := by
  intro q hq
  obtain ⟨s, hs, hq⟩ := Option.bind_eq_some_iff.1 hq
  exact (a.state_wellFormed hs).2.2.1 q hq

theorem walks_startChain : Walks (startLink a.states) [] (some 0) a.startChain := by
  refine walks_walk a.startLink_lt_size List.nodup_nil (by simp) ?_ (Nat.le_add_right _ _)
  intro q hq
  cases hq
  exact a.nonempty

theorem walks_endChain (q : Nat) :
    Walks (endLink a.states) [q] (endLink a.states q) (a.endChain q) := by
  by_cases inside : q < a.size
  · exact walks_walk a.endLink_lt_size (by simp) (by simpa using inside) (a.endLink_lt_size q)
      (Nat.le_add_right _ _)
  · have none : endLink a.states q = none := by
      simp [endLink, Array.getElem?_eq_none (Nat.le_of_not_lt inside)]
    rw [endChain, endStates, none]
    cases a.states.size <;> exact .finished _

/-- Runs start in the first state, whether start links are open or not. -/
theorem zero_mem_starts (fresh : Bool) : 0 ∈ a.starts fresh := by
  rw [starts]
  split
  · have walks := a.walks_startChain
    generalize a.startChain = chain at walks
    cases walks with
    | again seen => cases seen
    | visit => exact List.mem_cons_self
  · exact List.mem_singleton_self 0

theorem startChain_of_silent (silent : startLink a.states 0 = none) : a.startChain = [0] := by
  have walks := a.walks_startChain
  generalize a.startChain = chain at walks
  cases walks with
  | again seen => cases seen
  | visit _ rest =>
    rw [silent] at rest
    cases rest
    rfl

theorem endChain_of_silent {q : Nat} (silent : endLink a.states q = none) : a.endChain q = [] := by
  have walks := a.walks_endChain q
  rw [silent] at walks
  generalize a.endChain q = chain at walks
  cases walks
  rfl

theorem length_startChain_le : a.startChain.length ≤ a.size := by
  have first : ∀ q ∈ some 0, q < a.size := by
    intro q hq
    cases hq
    exact a.nonempty
  simpa using a.walks_startChain.length_le a.startLink_lt_size List.nodup_nil (by simp) first

theorem length_endChain_lt {q : Nat} (inside : q < a.size) : (a.endChain q).length < a.size := by
  have := (a.walks_endChain q).length_le a.endLink_lt_size (by simp) (by simpa using inside)
    (a.endLink_lt_size q)
  rw [List.length_singleton] at this
  omega

end Munch.Automaton
