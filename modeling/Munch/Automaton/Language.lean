import Munch.Automaton.Basic

/-!
# The texts that an automaton accepts

A run moves from state to state along a text and may die on the way. A text is accepted if
some run over it, from a state in which runs start, ends in an accepting state; where the text
ends there too, it is enough that the end links lead on to an accepting state.

## Main definitions

* `Automaton.run`: the state behind a text.
* `Automaton.Accepts`, `Automaton.AcceptsAtEnd`: acceptance inside a text and at its end.
* `Automaton.Survives`: some run is live behind the text.
-/

namespace Munch.Automaton

variable (a : Automaton)

/-- The state in which a run over a text ends, unless it dies. -/
def run (q : Nat) : List Char → Option Nat
  | [] => some q
  | c :: cs => (a.step q c).bind (run · cs)

@[simp] theorem run_nil (q : Nat) : a.run q [] = some q := rfl

theorem run_cons (q : Nat) (c : Char) (cs : List Char) :
    a.run q (c :: cs) = (a.step q c).bind (a.run · cs) := rfl

theorem run_append (q : Nat) (u v : List Char) :
    a.run q (u ++ v) = (a.run q u).bind (a.run · v) := by
  induction u generalizing q with
  | nil => rfl
  | cons c u ih => cases h : a.step q c <;> simp [run, h, ih]

/-- Some run over the text ends in an accepting state. -/
def Accepts (fresh : Bool) (w : List Char) : Prop :=
  ∃ q ∈ a.starts fresh, ∃ r ∈ a.run q w, a.accepts r

/-- Some run over the text ends in a state whose end links lead on to an accepting state. -/
def AcceptsAtEnd (fresh : Bool) (w : List Char) : Prop :=
  ∃ q ∈ a.starts fresh, ∃ r ∈ a.run q w, ∃ t ∈ a.endChain r, a.accepts t

/-- Some run over the text is live behind it. -/
def Survives (fresh : Bool) (w : List Char) : Prop :=
  ∃ q ∈ a.starts fresh, (a.run q w).isSome

/-- A run that is live behind a text was live all the way. -/
theorem Survives.of_append {a : Automaton} {fresh : Bool} {u v : List Char}
    (h : a.Survives fresh (u ++ v)) : a.Survives fresh u := by
  obtain ⟨q, start, live⟩ := h
  refine ⟨q, start, ?_⟩
  rw [run_append] at live
  cases run : a.run q u with
  | some r => rfl
  | none =>
    rw [run] at live
    cases live

end Munch.Automaton
