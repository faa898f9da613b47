import Munch.Proofs.Splitting

/-!
# Operators without anything between them

An operator begins with a delimiter that begins nothing else, so at an operator only operators
compete. One of more than one character can lose against a longer one only if it is `<<` and a minus
sign follows, and no operator begins with a minus sign. So the spellings of such operators, written
one directly behind the other, are read back in the order in which they were written, however their
characters would combine elsewhere.

## Main definitions

* `Operator.compound`: the operators of more than one character.
* `Operator.longest_of_compound`: where one of these is taken.
* `tokens_of_concatenated`: the tokens of operators written without separators.
-/

namespace Munch.Shell

variable {o : Operator} {rest : List Char}

/-- The operators of more than one character. -/
def Operator.compound : List Operator :=
  [.andIf, .orIf, .dSemi, .dLess, .dLessDash, .lessAnd, .lessGreat, .dGreat, .greatAnd, .clobber]

theorem Operator.mem_compound_iff (o : Operator) : o ∈ compound ↔ 1 < o.lexeme.length := by
  cases o <;> decide

/-- Of three characters there is only one operator. -/
theorem Operator.length_le_two (other : o ≠ .dLessDash) : o.lexeme.toList.length ≤ 2 := by
  cases o <;> simp_all [lexeme]

/-- No operator begins with a minus sign. -/
theorem Operator.head_ne_minus (o : Operator) : o.lexeme.toList.head? ≠ some '-' := by
  cases o <;> decide

/-- Where no minus sign follows, no operator is longer than one of more than one character. -/
theorem Operator.longest_of_compound (own : o ∈ compound) (next : rest.head? ≠ some '-')
    (o' : Operator) (fits : o'.lexeme.toList <+: o.lexeme.toList ++ rest) :
    o'.lexeme.toList.length ≤ o.lexeme.toList.length := by
  have two : 2 ≤ o.lexeme.toList.length := o.mem_compound_iff.1 own
  by_cases dash : o' = .dLessDash
  · -- Only the two operators that begin with `<<` come into question.
    subst dash
    cases o with
    | dLess =>
      obtain ⟨v, same⟩ : ['-'] <+: rest := by simpa [lexeme] using fits
      simp [← same] at next
    | dLessDash => exact Nat.le_refl _
    | less => exact absurd own (by decide)
    | _ => simp [lexeme] at fits
  · have := length_le_two dash
    omega

/-- Operators of more than one character that follow one another are taken one by one. -/
theorem splits_of_compound {ops : List Operator} (all : ∀ o ∈ ops, o ∈ Operator.compound) :
    Splits (ops.flatMap (·.lexeme.toList)) (ops.map fun o => .piece (.operator o)) := by
  induction ops with
  | nil => exact .done
  | cons o ops ih =>
    obtain ⟨own, others⟩ := List.forall_mem_cons.1 all
    have next : (ops.flatMap (·.lexeme.toList)).head? ≠ some '-' := by
      cases ops with
      | nil => simp
      | cons o' ops =>
        obtain ⟨c, v, first⟩ := List.exists_cons_of_length_pos (Piece.operator o').length_pos
        have head := o'.head_ne_minus
        rw [Piece.text] at first
        simpa [first] using head
    exact .piece (leads_operator_of_longest (Operator.longest_of_compound own next)) (ih others)

/-- Operators make one token each. -/
theorem tokensOf_operators (pos : Position) (ops : List Operator) :
    tokensOf pos (ops.map fun o => .piece (.operator o)) = placed pos (ops.map .operator) := by
  induction ops generalizing pos with
  | nil => rfl
  | cons o ops ih =>
    rw [List.map_cons, List.map_cons, tokensOf, placed, ih]
    rfl

/-- Operators of more than one character, written without separators, are the tokens of the text so
made: the same ones in the same order, each where its spelling begins, and nothing else. -/
theorem tokens_of_concatenated (ops : List Operator) (all : ∀ o ∈ ops, o ∈ Operator.compound)
    (capacity : Nat) (room : 1 ≤ capacity) :
    tokens (.ofString (String.join (ops.map (·.lexeme)))) capacity =
      .ok ((placed {} (ops.map .operator)).map .ok) := by
  have splits : Splits (String.join (ops.map (·.lexeme))).toList
      (ops.map fun o => .piece (.operator o)) := by
    rw [String.toList_join, List.flatMap_map]
    exact splits_of_compound all
  rw [tokens_of_splits room splits, tokensOf_operators]

/-- Characters that would combine across the borders of the operators: `<<` before `<&`, before
`<<-`, and `<>` before `>>`. -/
theorem tokens_of_concatenated_less :
    tokens (.ofString "<<<&<<<<-<>>>") 16 = .ok ([⟨.operator .dLess, ⟨0, 0⟩⟩,
      ⟨.operator .lessAnd, ⟨0, 2⟩⟩, ⟨.operator .dLess, ⟨0, 4⟩⟩, ⟨.operator .dLessDash, ⟨0, 6⟩⟩,
      ⟨.operator .lessGreat, ⟨0, 9⟩⟩, ⟨.operator .dGreat, ⟨0, 11⟩⟩].map .ok) :=
  tokens_of_concatenated [.dLess, .lessAnd, .dLess, .dLessDash, .lessGreat, .dGreat]
    (by decide) 16 (by decide)

end Munch.Shell
