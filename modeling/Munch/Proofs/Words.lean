import Mathlib.Data.Bool.AllAny
import Mathlib.Data.List.Basic
import Munch.Shell.Word

/-!
# Words from left to right

The first character of a word says what its first segment is, and what is left of the word behind
that character: more segments, or the rest of a quoted part with more segments behind it. So a word
can be read from left to right without going back. Where one word is a prefix of another, the rest
is made of segments as well, and a delimiter behind a word ends it for good.

## Main definitions

* `Segments`, `ClosesSingle`, `ClosesDouble`: what may be left of a word.
* `isWord_cons`, `closesSingle_cons`, `closesDouble_cons`: what is left behind one character.
* `IsWord.append_iff`: what may follow a word so that it is a longer word.
-/

namespace Munch.Shell

variable {c d : Char} {cs s v w x : List Char}

/-- Any number of segments. -/
def Segments (w : List Char) : Prop := w = [] ∨ IsWord w

/-- The rest of a part in single quotes, and more segments. -/
def ClosesSingle (w : List Char) : Prop := ∃ cs v, '\'' ∉ cs ∧ w = cs ++ '\'' :: v ∧ Segments v

/-- The rest of a part in double quotes, and more segments. -/
def ClosesDouble (w : List Char) : Prop :=
  ∃ cs v, InDoubleQuotes cs ∧ w = cs ++ '"' :: v ∧ Segments v

theorem IsWord.ne_nil (h : IsWord w) : w ≠ [] := by
  cases h with
  | segment s => cases s <;> simp
  | append s _ => cases s <;> simp

theorem isWord_iff : IsWord w ↔ ∃ s v, Segment s ∧ Segments v ∧ w = s ++ v := by
  constructor
  · intro h
    cases h with
    | segment s => exact ⟨w, [], s, .inl rfl, (List.append_nil w).symm⟩
    | append s more => exact ⟨_, _, s, .inr more, rfl⟩
  · rintro ⟨s, v, segment, rfl | more, rfl⟩
    · rw [List.append_nil]
      exact .segment segment
    · exact .append segment more

/-- The first character of a word decides on its first segment. -/
theorem isWord_cons : IsWord (c :: w) ↔ ¬IsSpecial c ∧ Segments w ∨ c = '\'' ∧ ClosesSingle w ∨
    c = '"' ∧ ClosesDouble w ∨ c = '\\' ∧ ∃ d v, w = d :: v ∧ Segments v := by
  rw [isWord_iff]
  constructor
  · rintro ⟨s, v, segment, more, same⟩
    cases segment with
    | unquoted plain =>
      cases same
      exact .inl ⟨plain, more⟩
    | @single cs closed =>
      simp only [List.cons_append, List.append_assoc, List.cons.injEq] at same
      exact .inr (.inl ⟨same.1, cs, v, closed, same.2, more⟩)
    | @double cs inside =>
      simp only [List.cons_append, List.append_assoc, List.cons.injEq] at same
      exact .inr (.inr (.inl ⟨same.1, cs, v, inside, same.2, more⟩))
    | escape d =>
      cases same
      exact .inr (.inr (.inr ⟨rfl, d, v, rfl, more⟩))
  · rintro (⟨plain, more⟩ | ⟨rfl, cs, v, closed, rfl, more⟩ | ⟨rfl, cs, v, inside, rfl, more⟩ |
      ⟨rfl, d, v, rfl, more⟩)
    · exact ⟨[c], w, .unquoted plain, more, rfl⟩
    · exact ⟨_, v, .single closed, more, by simp⟩
    · exact ⟨_, v, .double inside, more, by simp⟩
    · exact ⟨_, v, .escape d, more, rfl⟩

theorem segments_cons : Segments (c :: w) ↔ IsWord (c :: w) := by simp [Segments]

theorem closesSingle_cons :
    ClosesSingle (c :: w) ↔ c = '\'' ∧ Segments w ∨ c ≠ '\'' ∧ ClosesSingle w := by
  constructor
  · rintro ⟨cs, v, closed, same, more⟩
    cases cs with
    | nil =>
      cases same
      exact .inl ⟨rfl, more⟩
    | cons d cs =>
      cases same
      rw [List.mem_cons, not_or] at closed
      exact .inr ⟨Ne.symm closed.1, cs, v, closed.2, rfl, more⟩
  · rintro (⟨rfl, more⟩ | ⟨other, cs, v, closed, rfl, more⟩)
    · exact ⟨[], w, by simp, rfl, more⟩
    · exact ⟨c :: cs, v, by simpa [closed] using other.symm, rfl, more⟩

theorem closesDouble_cons : ClosesDouble (c :: w) ↔ c = '"' ∧ Segments w ∨
    c = '\\' ∧ (∃ d v, w = d :: v ∧ ClosesDouble v) ∨ c ≠ '"' ∧ c ≠ '\\' ∧ ClosesDouble w := by
  constructor
  · rintro ⟨cs, v, inside, same, more⟩
    cases inside with
    | nil =>
      cases same
      exact .inl ⟨rfl, more⟩
    | @char d cs quote escape inside =>
      cases same
      exact .inr (.inr ⟨quote, escape, cs, v, inside, rfl, more⟩)
    | @pair d cs inside =>
      cases same
      exact .inr (.inl ⟨rfl, d, _, rfl, cs, v, inside, rfl, more⟩)
  · rintro (⟨rfl, more⟩ | ⟨rfl, d, _, rfl, cs, v, inside, rfl, more⟩ |
      ⟨quote, escape, cs, v, inside, rfl, more⟩)
    · exact ⟨[], w, .nil, rfl, more⟩
    · exact ⟨_, v, .pair d inside, rfl, more⟩
    · exact ⟨_, v, .char quote escape inside, rfl, more⟩

@[simp] theorem not_isWord_nil : ¬IsWord [] := fun h => h.ne_nil rfl

@[simp] theorem segments_nil : Segments [] := .inl rfl

@[simp] theorem not_closesSingle_nil : ¬ClosesSingle [] := by simp [ClosesSingle]

@[simp] theorem not_closesDouble_nil : ¬ClosesDouble [] := by simp [ClosesDouble]

/-! ## What may follow a word -/

theorem closesSingle_append (closed : '\'' ∉ cs) :
    ClosesSingle (cs ++ '\'' :: x) ↔ Segments x := by
  induction cs with
  | nil => simp [closesSingle_cons]
  | cons d cs ih =>
    rw [List.mem_cons, not_or] at closed
    rw [List.cons_append, closesSingle_cons, ih closed.2]
    simp [Ne.symm closed.1]

theorem closesDouble_append (inside : InDoubleQuotes cs) :
    ClosesDouble (cs ++ '"' :: x) ↔ Segments x := by
  induction inside with
  | nil => simp [closesDouble_cons]
  | char quote escape _ ih =>
    rw [List.cons_append, closesDouble_cons, ih]
    simp [quote, escape]
  | pair d _ ih =>
    rw [List.cons_append, closesDouble_cons]
    simp [ih]

theorem Segment.append_iff (h : Segment s) : IsWord (s ++ x) ↔ Segments x := by
  have quotes : IsSpecial '\'' ∧ IsSpecial '"' ∧ IsSpecial '\\' := by decide
  cases h with
  | @unquoted c plain =>
    rw [List.singleton_append, isWord_cons]
    have single : c ≠ '\'' := fun same => plain (same ▸ quotes.1)
    have double : c ≠ '"' := fun same => plain (same ▸ quotes.2.1)
    have escape : c ≠ '\\' := fun same => plain (same ▸ quotes.2.2)
    simp [plain, single, double, escape]
  | single closed =>
    rw [List.cons_append, List.cons_append, isWord_cons, List.append_assoc,
      List.singleton_append, closesSingle_append closed]
    simp [quotes]
  | double inside =>
    rw [List.cons_append, List.cons_append, isWord_cons, List.append_assoc,
      List.singleton_append, closesDouble_append inside]
    simp [quotes]
  | escape d =>
    rw [List.cons_append, List.cons_append, List.nil_append, isWord_cons]
    simp [quotes]

/-- A word with more behind it is a word just if the rest is made of segments. -/
theorem IsWord.append_iff (h : IsWord w) : IsWord (w ++ x) ↔ Segments x := by
  induction h with
  | segment s => exact s.append_iff
  | @append s w segment more ih =>
    have rest : Segments (w ++ x) ↔ IsWord (w ++ x) := by simp [Segments, more.ne_nil]
    rw [List.append_assoc, segment.append_iff, rest, ih]

/-- No word begins with a delimiter. -/
theorem not_isWord_delimiter (h : c ∈ delimiters.toList) : ¬IsWord (c :: w) := by
  have quotes : '\'' ∉ delimiters.toList ∧ '"' ∉ delimiters.toList ∧ '\\' ∉ delimiters.toList := by
    decide
  rw [isWord_cons]
  rintro (⟨plain, -⟩ | ⟨rfl, -⟩ | ⟨rfl, -⟩ | ⟨rfl, -⟩)
  · exact plain (.inl h)
  · exact quotes.1 h
  · exact quotes.2.1 h
  · exact quotes.2.2 h

/-- A delimiter ends a word for good. -/
theorem IsWord.not_append_delimiter (h : IsWord w) (hd : d ∈ delimiters.toList) :
    ¬IsWord (w ++ d :: x) := by
  rw [h.append_iff, segments_cons]
  exact not_isWord_delimiter hd

/-- The beginning of a text that is cut by a character ends before the character or contains it. -/
theorem length_le_or_eq_append (h : v <+: w ++ d :: x) :
    v.length ≤ w.length ∨ ∃ y, v = w ++ d :: y := by
  by_cases within : v.length ≤ w.length
  · exact .inl within
  · right
    obtain ⟨y, same⟩ := h
    have all : w <+: v :=
      List.prefix_of_prefix_length_le (List.prefix_append w (d :: x)) ⟨y, same⟩ (by omega)
    obtain ⟨z, rfl⟩ := all
    cases z with
    | nil => simp at within
    | cons c z =>
      rw [List.append_assoc, List.append_cancel_left_eq, List.cons_append, List.cons.injEq] at same
      exact ⟨z, by rw [same.1]⟩

theorem length_le_of_not_mem (h : v <+: w ++ d :: x) (without : d ∉ v) : v.length ≤ w.length := by
  rcases length_le_or_eq_append h with within | ⟨y, rfl⟩
  · exact within
  · simp at without

/-- No word at the beginning of a text reaches beyond one that a delimiter follows. -/
theorem IsWord.length_le (h : IsWord v) (fits : v <+: w ++ d :: x) (bounded : IsWord w)
    (hd : d ∈ delimiters.toList) : v.length ≤ w.length := by
  rcases length_le_or_eq_append fits with within | ⟨y, rfl⟩
  · exact within
  · exact absurd h (bounded.not_append_delimiter hd)

/-- Unquoted characters alone are a word. -/
theorem isWord_of_unquoted (ne : w ≠ []) (plain : ∀ c ∈ w, ¬IsSpecial c) : IsWord w := by
  induction w with
  | nil => exact absurd rfl ne
  | cons c w ih =>
    obtain ⟨first, others⟩ := List.forall_mem_cons.1 plain
    rw [isWord_cons]
    refine .inl ⟨first, ?_⟩
    by_cases last : w = []
    · exact .inl last
    · exact .inr (ih last others)

theorem Reserved.isWord (r : Reserved) : IsWord r.lexeme.toList := by
  have plain : ∀ r ∈ Reserved.all, r.lexeme.toList ≠ [] ∧
      r.lexeme.toList.all (¬IsSpecial ·) = true := by decide
  obtain ⟨nonempty, unquoted⟩ := plain r r.mem_all
  exact isWord_of_unquoted nonempty (List.all_iff_forall_prop.1 unquoted)

theorem IsNumber.isWord (h : IsNumber w) : IsWord w := by
  have plain : ∀ c ∈ digits.toList, ¬IsSpecial c := List.all_iff_forall_prop.1 (by decide)
  exact isWord_of_unquoted h.1 fun c hc => plain c (h.2 c hc)

end Munch.Shell
