import Mathlib.Algebra.Group.Nat.Defs
import Mathlib.Data.List.DropRight
import Munch.Position

/-!
# Positions are ordered as offsets are

The position behind a text has a closed form. Its line is the first one and the line feeds of the
text. Its column is the number of characters behind the last line feed or, if there is none, the
first column and the length of the text. Both go no further than a counter does, so positions near
the limit need not tell offsets apart. Where the counters have room for all the text, a line feed
between two offsets shows in the line, and other characters between them show in the column.

## Main definitions

* `Position.toNat_line_visitAll`, `Position.toNat_column_visitAll`: the position behind a text.
* `Position.HasRoom`: the counters have room for a number of characters.
* `Position.HasRoom.compare_take`: the order of two positions in a text is that of their offsets.
* `Position.orders_offsets`: the order from the beginning of a text on, and what becomes of any
  position.
-/

namespace Munch

namespace Position

variable {p q : Position} {text : List Char} {i j m n : Nat}

/-! ## The order -/

theorem compare_eq_lt : compare p q = .lt ↔ p < q := by
  calc
    compare p q = .lt ↔ compare p.line q.line = .lt ∨
        compare p.line q.line = .eq ∧ compare p.column q.column = .lt := Ordering.then_eq_lt
    _ ↔ p < q := by rw [Std.compare_eq_lt, Std.compare_eq_iff_eq, Std.compare_eq_lt]; rfl

instance : Std.OrientedOrd Position :=
  inferInstanceAs (Std.OrientedCmp (compareLex (compareOn line) (compareOn column)))

/-! ## The position behind a text -/

theorem toNat_le_greatest (n : UInt64) : n.toNat ≤ greatest.toNat := Nat.le_pred_of_lt n.toNat_lt

/-- The lines of a text are counted, as far as the counter goes. -/
theorem toNat_line_visitAll (p : Position) (text : List Char) :
    (p.visitAll text).line.toNat = min (p.line.toNat + text.count '\n') greatest.toNat := by
  -- The last character is taken off, as what a position becomes depends on what was before it.
  induction text using List.reverseRecOn with
  | nil => simp [toNat_le_greatest]
  | append_singleton text c ih =>
    rw [visitAll_append, visitAll_cons, visitAll_nil, List.count_append]
    by_cases feed : c = '\n'
    · rw [feed, visit_newline, toNat_succ, ih, List.count_singleton_self]
      omega
    · rw [visit_of_ne _ feed, ih, List.count_singleton, if_neg (by simpa using feed)]
      omega

/-- The characters behind the last line feed are counted, and where there is none, all of them from
the first column on, as far as the counter goes. -/
theorem toNat_column_visitAll (p : Position) (text : List Char) :
    (p.visitAll text).column.toNat =
      min (if '\n' ∈ text then (text.rtakeWhile (· ≠ '\n')).length
        else p.column.toNat + text.length) greatest.toNat := by
  induction text using List.reverseRecOn with
  | nil => simp [toNat_le_greatest]
  | append_singleton text c ih =>
    rw [visitAll_append, visitAll_cons, visitAll_nil]
    by_cases feed : c = '\n'
    · simp [feed]
    · have among : '\n' ∈ text ++ [c] ↔ '\n' ∈ text := by simp [Ne.symm feed]
      rw [visit_of_ne _ feed, toNat_succ, ih,
        List.rtakeWhile_concat_pos _ _ _ (by simpa using feed)]
      simp only [among, List.length_append, List.length_singleton]
      split <;> omega

/-- No character leads back to an earlier line. -/
theorem line_le_visitAll (p : Position) (text : List Char) : p.line ≤ (p.visitAll text).line := by
  have lines := p.toNat_line_visitAll text
  have le := toNat_le_greatest p.line
  exact UInt64.le_iff_toNat_le.2 (by omega)

/-! ## Offsets -/

/-- The counters have room for so many characters, whichever these are. -/
structure HasRoom (p : Position) (n : Nat) : Prop where
  line : p.line.toNat + n ≤ greatest.toNat
  column : p.column.toNat + n ≤ greatest.toNat

/-- The beginning of a text has room for as many characters as a counter counts. -/
theorem hasRoom_origin (short : n < 2 ^ 64) : HasRoom {} n := by
  have limit : 0 + n ≤ greatest.toNat := by
    rw [Nat.zero_add]
    exact Nat.le_pred_of_lt short
  exact ⟨limit, limit⟩

theorem HasRoom.mono (h : p.HasRoom n) (le : m ≤ n) : p.HasRoom m :=
  ⟨le_trans (Nat.add_le_add_left le _) h.line, le_trans (Nat.add_le_add_left le _) h.column⟩

/-- Behind a text there is room for what comes after it. -/
theorem HasRoom.visitAll (h : p.HasRoom (text.length + n)) : (p.visitAll text).HasRoom n := by
  obtain ⟨line, column⟩ := h
  constructor
  · have fed : text.count '\n' ≤ text.length := List.count_le_length
    rw [toNat_line_visitAll]
    omega
  · have short : (text.rtakeWhile (· ≠ '\n')).length ≤ text.length :=
      (List.rtakeWhile_suffix _ _).length_le
    rw [toNat_column_visitAll]
    split <;> omega

/-- With room for a text, the position behind it comes later. -/
theorem HasRoom.lt_visitAll (h : p.HasRoom text.length) (nonempty : text ≠ []) :
    p < p.visitAll text := by
  obtain ⟨line, column⟩ := h
  have lines := p.toNat_line_visitAll text
  have columns := p.toNat_column_visitAll text
  -- The column says nothing where the line has changed, and all where it has not.
  by_cases feed : '\n' ∈ text
  · have fed : 0 < text.count '\n' := List.count_pos_iff.2 feed
    have le : text.count '\n' ≤ text.length := List.count_le_length
    exact .inl (UInt64.lt_iff_toNat_lt.2 (by omega))
  · have positive : 0 < text.length := List.length_pos_iff.2 nonempty
    rw [List.count_eq_zero.2 feed] at lines
    rw [if_neg feed] at columns
    exact .inr ⟨UInt64.toNat_inj.1 (by omega), UInt64.lt_iff_toNat_lt.2 (by omega)⟩

/-- The position behind a text comes later than the one behind a beginning of it. -/
theorem HasRoom.lt_of_prefix {front : List Char} (h : p.HasRoom text.length)
    (fits : front <+: text) (shorter : front.length < text.length) :
    p.visitAll front < p.visitAll text := by
  obtain ⟨rest, rfl⟩ := fits
  rw [List.length_append] at h shorter
  rw [visitAll_append]
  exact h.visitAll.lt_visitAll (List.ne_nil_of_length_pos (by omega))

/-- The later offset has the later position. -/
theorem HasRoom.take_lt_take (h : p.HasRoom text.length) (lt : i < j) (within : j ≤ text.length) :
    p.visitAll (text.take i) < p.visitAll (text.take j) := by
  have length : (text.take j).length = j := List.length_take_of_le within
  apply HasRoom.lt_of_prefix
  · exact h.mono (length.le.trans within)
  · exact List.take_prefix_take_left lt.le
  · rw [length, List.length_take_of_le (lt.le.trans within)]
    exact lt

/-- The order of positions is that of offsets. -/
theorem HasRoom.compare_take (h : p.HasRoom text.length) (left : i ≤ text.length)
    (right : j ≤ text.length) :
    compare (p.visitAll (text.take i)) (p.visitAll (text.take j)) = compare i j := by
  obtain lt | rfl | gt := Nat.lt_trichotomy i j
  · rw [Nat.compare_eq_lt.2 lt, compare_eq_lt]
    exact h.take_lt_take lt right
  · rw [Std.ReflOrd.compare_self, Std.ReflOrd.compare_self]
  · rw [Nat.compare_eq_gt.2 gt, Std.OrientedCmp.gt_iff_lt, compare_eq_lt]
    exact h.take_lt_take gt left

/-- In a text of fewer than `2 ^ 64` characters the positions are ordered as the offsets are. From
any position on, a text may be visited in two parts, the line never goes back, and the column is the
number of characters behind the last line feed or, where there is none, the first column and the
length of the text, as far as the counter goes. -/
theorem orders_offsets :
    (∀ text : List Char, text.length < 2 ^ 64 → ∀ i ≤ text.length, ∀ j ≤ text.length,
      (visitAll {} (text.take i) < visitAll {} (text.take j) ↔ i < j) ∧
      compare (visitAll {} (text.take i)) (visitAll {} (text.take j)) = compare i j) ∧
    ∀ (p : Position) (a b : List Char),
      p.visitAll (a ++ b) = (p.visitAll a).visitAll b ∧
      p.line ≤ (p.visitAll a).line ∧
      (p.visitAll a).column.toNat =
        min (if '\n' ∈ a then (a.rtakeWhile (· ≠ '\n')).length else p.column.toNat + a.length)
          (2 ^ 64 - 1) := by
  refine ⟨fun text short i left j right => ?_, fun p a b => ?_⟩
  · have same := (hasRoom_origin short).compare_take left right
    refine ⟨?_, same⟩
    rw [← compare_eq_lt, same, Nat.compare_eq_lt]
  · exact ⟨p.visitAll_append a b, p.line_le_visitAll a, p.toNat_column_visitAll a⟩

/-- A line feed leads to a smaller column and to a later position. -/
theorem orders_offsets_across_lines :
    let text := "ab\ncd".toList
    text.length < 2 ^ 64 ∧ 2 ≤ text.length ∧ 3 ≤ text.length ∧
      visitAll {} (text.take 2) = ⟨0, 2⟩ ∧ visitAll {} (text.take 3) = ⟨1, 0⟩ ∧
      (⟨0, 2⟩ : Position) < ⟨1, 0⟩ := by
  intro text
  refine ⟨by decide, by decide, by decide, by decide, by decide, ?_⟩
  exact (orders_offsets.1 text (by decide) 2 (by decide) 3 (by decide)).1.2 (by decide)

end Position

end Munch
