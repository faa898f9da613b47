import Mathlib.Data.List.Basic
import Munch.Text.Escape

/-!
# Escaped text is read back and can be shown

An escaped character begins with a backslash just if it is an escape, and an escape says where it
ends: after one more character, or at the brace behind its digits. So what was escaped is read back
character by character, in whatever style each of them was escaped, and different texts are
different when escaped. An escape is made of characters that can be shown, and a character that
cannot be shown is always escaped.

## Main definitions

* `Text.unescape`: the reader of escaped text.
* `Text.unescape_escapedChars`, `Text.escaped_injective`: nothing is lost.
* `Text.isPrintable_of_mem_escaped`: all that escaped text holds can be shown.
-/

namespace Munch.Text

/-! ## Hexadecimal digits -/

/-- The value of a lowercase hexadecimal digit. -/
def hexValue (c : Char) : Nat := c.toNat - if c.isDigit then '0'.toNat else 'a'.toNat - 10

/-- The number that is written by hexadecimal digits. -/
def hexNumber (digits : List Char) : Nat := digits.foldl (fun n c => 16 * n + hexValue c) 0

theorem hexValue_digitChar {n : Nat} (small : n < 16) : hexValue n.digitChar = n := by
  have all : ∀ n < 16, hexValue n.digitChar = n := by decide
  exact all n small

/-- The digits of a number begin with those of its sixteenth and end with one for the rest. -/
theorem hexNumber_toDigits (n : Nat) : hexNumber (Nat.toDigits 16 n) = n := by
  induction n using Nat.strongRecOn with
  | ind n ih =>
    rw [Nat.toDigits_eq_if (by decide)]
    split
    · next small => simp [hexNumber, hexValue_digitChar small]
    · next large =>
      have leading := ih (n / 16) (by omega)
      rw [hexNumber] at leading ⊢
      rw [List.foldl_append, leading]
      simp only [List.foldl_cons, List.foldl_nil, hexValue_digitChar (Nat.mod_lt n (by decide))]
      omega

/-- A property of all digits of a base holds of the digits of a number. -/
theorem forall_mem_toDigits {P : Char → Prop} {b : Nat} (base : 1 < b)
    (digits : ∀ d < b, P (Nat.digitChar d)) (n : Nat) : ∀ c ∈ Nat.toDigits b n, P c := by
  induction n using Nat.strongRecOn with
  | ind n ih =>
    rw [Nat.toDigits_eq_if base]
    split
    · next small => simpa using digits n small
    · next large =>
      have leading := ih (n / b) (Nat.div_lt_self (by omega) base)
      simpa [or_imp, forall_and] using ⟨leading, digits (n % b) (Nat.mod_lt n (by omega))⟩

/-! ## Reading back -/

/-- The character that an escape stands for, told by what is behind its backslash, and the text
behind the escape. -/
def readEscape : List Char → Option (Char × List Char)
  | [] => none
  | '0' :: rest => some ('\x00', rest)
  | 't' :: rest => some ('\t', rest)
  | 'r' :: rest => some ('\r', rest)
  | 'n' :: rest => some ('\n', rest)
  | 'u' :: '\x7b' :: rest =>
    let digits := rest.takeWhile (· != '\x7d')
    some (.ofNat (hexNumber digits), rest.drop (digits.length + 1))
  | c :: rest => some (c, rest)

/-- The first character of an escaped text and the text behind it. -/
def readChar : List Char → Option (Char × List Char)
  | [] => none
  | '\\' :: rest => readEscape rest
  | c :: rest => some (c, rest)

theorem length_readEscape_lt {cs rest : List Char} {c : Char} (h : readEscape cs = some (c, rest)) :
    rest.length < cs.length := by
  unfold readEscape at h
  split at h <;> cases h <;> simp
  omega

theorem length_readChar_lt {cs rest : List Char} {c : Char} (h : readChar cs = some (c, rest)) :
    rest.length < cs.length := by
  unfold readChar at h
  split at h
  · cases h
  · exact Nat.lt_succ_of_lt (length_readEscape_lt h)
  · cases h
    simp

/-- The text that was escaped. -/
def unescape (cs : List Char) : List Char :=
  match h : readChar cs with
  | none => []
  | some (c, rest) =>
    have := length_readChar_lt h
    c :: unescape rest
termination_by cs.length

theorem unescape_of_read {cs rest : List Char} {c : Char} (h : readChar cs = some (c, rest)) :
    unescape cs = c :: unescape rest := by
  rw [unescape]
  split <;> simp_all

/-- The brace at the end is no digit. -/
theorem readChar_codePoint (c : Char) (rest : List Char) :
    readChar (codePoint c ++ rest) = some (c, rest) := by
  have digits : ∀ d ∈ Nat.toDigits 16 c.toNat, d ≠ '\x7d' :=
    forall_mem_toDigits (P := (· ≠ '\x7d')) (by decide) (by decide) c.toNat
  have taken : (Nat.toDigits 16 c.toNat ++ '\x7d' :: rest).takeWhile (· != '\x7d') =
      Nat.toDigits 16 c.toNat := by
    rw [List.takeWhile_append_of_pos (by simpa using digits)]
    simp
  simp [codePoint, readChar, readEscape, taken, hexNumber_toDigits, ← List.drop_drop]

/-- Whatever the style, a character is read back, and reading goes on behind it. -/
theorem readChar_escapeChar (style : EscapeStyle) (c : Char) (rest : List Char) :
    readChar (escapeChar style c ++ rest) = some (c, rest) := by
  unfold escapeChar
  split
  · rfl
  · rfl
  · rfl
  · rfl
  · rfl
  · split <;> rfl
  · split <;> rfl
  · split
    · exact readChar_codePoint c rest
    · simp [readChar]

theorem unescape_escapeChar (style : EscapeStyle) (c : Char) (rest : List Char) :
    unescape (escapeChar style c ++ rest) = c :: unescape rest :=
  unescape_of_read (readChar_escapeChar style c rest)

theorem unescape_flatMap (style : EscapeStyle) (cs : List Char) :
    unescape (cs.flatMap (escapeChar style)) = cs := by
  induction cs with
  | nil => simp [unescape, readChar]
  | cons c cs ih => rw [List.flatMap_cons, unescape_escapeChar, ih]

/-- Reading undoes escaping, though the first character is escaped in a style of its own. -/
theorem unescape_escapedChars (cs : List Char) : unescape (escapedChars cs) = cs := by
  cases cs with
  | nil => exact unescape_flatMap .inner []
  | cons c cs => rw [escapedChars, unescape_escapeChar, unescape_flatMap]

theorem escaped_injective {s t : String} (h : escaped s = escaped t) : s = t := by
  have same := congrArg unescape (String.ofList_inj.1 h)
  rw [unescape_escapedChars, unescape_escapedChars] at same
  exact String.toList_inj.1 same

/-! ## Showing -/

/-- The control characters of ASCII. -/
def IsControl (c : Char) : Prop := c.toNat < 0x20 ∨ c.toNat = 0x7F

theorem not_isControl_of_isPrintable {c : Char} (shown : isPrintable c = true) : ¬IsControl c := by
  rintro control
  have small : c.toNat < 0x80 := by
    rw [IsControl] at control
    omega
  rw [isPrintable_of_lt small] at shown
  simp [IsControl] at shown control
  omega

theorem isPrintable_of_mem_codePoint {c d : Char} (h : d ∈ codePoint c) : isPrintable d = true := by
  have parts : codePoint c = ['\\', 'u', '\x7b'] ++ Nat.toDigits 16 c.toNat ++ ['\x7d'] := rfl
  rw [parts, List.mem_append, List.mem_append] at h
  rcases h with (opening | digit) | closing
  · exact List.all_eq_true.1 (by decide) d opening
  · exact forall_mem_toDigits (P := (isPrintable · = true)) (by decide) (by decide) c.toNat d digit
  · exact List.all_eq_true.1 (by decide) d closing

/-- A character stands for itself only if it can be shown. -/
theorem isPrintable_of_mem_escapeChar {style : EscapeStyle} {c d : Char}
    (h : d ∈ escapeChar style c) : isPrintable d = true := by
  unfold escapeChar at h
  split at h
  case h_6 | h_7 => split at h <;> exact List.all_eq_true.1 (by decide) d h
  case h_8 =>
    split at h
    · exact isPrintable_of_mem_codePoint h
    · next shown =>
      obtain rfl := List.mem_singleton.1 h
      simp_all
  all_goals exact List.all_eq_true.1 (by decide) d h

theorem isPrintable_of_mem_escaped {s : String} {d : Char} (h : d ∈ (escaped s).toList) :
    isPrintable d = true := by
  rw [escaped, String.toList_ofList] at h
  cases chars : s.toList with
  | nil => simp [chars, escapedChars] at h
  | cons c cs =>
    simp only [chars, escapedChars, List.mem_append, List.mem_flatMap] at h
    rcases h with h | ⟨e, -, h⟩
    · exact isPrintable_of_mem_escapeChar h
    · exact isPrintable_of_mem_escapeChar h

end Munch.Text
