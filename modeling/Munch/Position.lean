/-!
# Positions in a text

A position counts lines and columns from zero, in 64-bit words that saturate: a counter at
its greatest value stays there. A line feed opens the next line; every other character,
whatever its width, is one column. Positions are ordered by line, then by column.
-/

namespace Munch

/-- A line and a column of a text, both counted from zero. -/
structure Position where
  line : UInt64 := 0
  column : UInt64 := 0
deriving DecidableEq, Inhabited

namespace Position

/-- The greatest value of a counter. -/
def greatest : UInt64 := 0xFFFFFFFFFFFFFFFF

/-- The next counter value, which is the same one at the greatest. -/
def succ (n : UInt64) : UInt64 := if n = greatest then n else n + 1

theorem toNat_succ (n : UInt64) : (succ n).toNat = min (n.toNat + 1) greatest.toNat := by
  have lt := n.toNat_lt
  have : greatest.toNat = 18446744073709551615 := rfl
  rw [succ]
  split
  · subst n; decide
  · next h =>
    have : n.toNat ≠ greatest.toNat := fun e => h (UInt64.toNat_inj.1 e)
    simp only [UInt64.toNat_add, UInt64.toNat_one]
    omega

/-- The position after one more character. -/
def visit (p : Position) (c : Char) : Position :=
  if c = '\n' then ⟨succ p.line, 0⟩ else ⟨p.line, succ p.column⟩

@[simp] theorem visit_newline (p : Position) : p.visit '\n' = ⟨succ p.line, 0⟩ := rfl

theorem visit_of_ne (p : Position) {c : Char} (h : c ≠ '\n') :
    p.visit c = ⟨p.line, succ p.column⟩ := if_neg h

/-- The position after every character of a span. -/
def visitAll (p : Position) (cs : List Char) : Position := cs.foldl visit p

@[simp] theorem visitAll_nil (p : Position) : p.visitAll [] = p := rfl
@[simp] theorem visitAll_cons (p : Position) (c : Char) (cs : List Char) :
    p.visitAll (c :: cs) = (p.visit c).visitAll cs := rfl
@[simp] theorem visitAll_append (p : Position) (a b : List Char) :
    p.visitAll (a ++ b) = (p.visitAll a).visitAll b := List.foldl_append

/-- Line first, then column. -/
instance : Ord Position where
  compare p q := (compare p.line q.line).then (compare p.column q.column)

instance : LT Position where
  lt p q := p.line < q.line ∨ p.line = q.line ∧ p.column < q.column

/-- How a position reads in a message. -/
def describe (p : Position) : String := s!"line {p.line}, column {p.column}"

/-- How a position heads an output line. -/
def label (p : Position) : String := s!"{p.line}:{p.column}"

end Position
end Munch
