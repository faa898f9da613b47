/-!
# The first character of UTF-8 bytes

Decoding looks at the first bytes only and gives the character that they spell. Where they
spell none, it gives the number of bytes that could begin a character, or one if already the
first byte cannot; the caller tells from this number whether more bytes might help. The
admissible bytes are those of the Unicode standard's table of well-formed sequences, so
overlong forms, surrogates and values past the last code point are refused at the first byte
that gives them away.
-/

namespace Munch.Utf8

/-- What a first byte beyond ASCII announces: its own bits of the code point, how many bytes
follow, and the range of the next one. -/
structure Lead where
  bits : Nat
  following : Nat
  low : Nat
  high : Nat

/-- The first bytes of characters beyond ASCII. -/
def lead? (b : UInt8) : Option Lead :=
  let n := b.toNat
  if n < 0xC2 then none
  else if n < 0xE0 then some ⟨n - 0xC0, 1, 0x80, 0xBF⟩
  else if n = 0xE0 then some ⟨0x0, 2, 0xA0, 0xBF⟩
  else if n = 0xED then some ⟨0xD, 2, 0x80, 0x9F⟩
  else if n < 0xF0 then some ⟨n - 0xE0, 2, 0x80, 0xBF⟩
  else if n = 0xF0 then some ⟨0x0, 3, 0x90, 0xBF⟩
  else if n < 0xF4 then some ⟨n - 0xF0, 3, 0x80, 0xBF⟩
  else if n = 0xF4 then some ⟨0x4, 3, 0x80, 0x8F⟩
  else none

/-- Go on with a character of which `size` bytes are taken: the next byte has to lie between
`low` and `high`, every later one between 0x80 and 0xBF. -/
def extend (bits low high size : Nat) : (following : Nat) → List UInt8 → Option Char × Nat
  | 0, _ => (some (Char.ofNat bits), size)
  | _ + 1, [] => (none, size)
  | k + 1, b :: bs =>
    if low ≤ b.toNat && b.toNat ≤ high then
      extend (bits * 64 + (b.toNat - 0x80)) 0x80 0xBF (size + 1) k bs
    else (none, size)

/-- The first character with the number of its bytes, else the number of bytes at the front
that could begin a character, at least one if there is a byte. -/
def decode : List UInt8 → Option Char × Nat
  | [] => (none, 0)
  | b :: bs =>
    if b.toNat < 0x80 then (some (Char.ofNat b.toNat), 1)
    else
      match lead? b with
      | some l => extend l.bits l.low l.high 1 l.following bs
      | none => (none, 1)

theorem le_extend_size (bits low high size following : Nat) (bs : List UInt8) :
    size ≤ (extend bits low high size following bs).2 := by
  induction following generalizing bits low high size bs with
  | zero => exact Nat.le_refl _
  | succ k ih =>
    cases bs with
    | nil => exact Nat.le_refl _
    | cons b bs =>
      rw [extend]
      split
      · exact Nat.le_trans (Nat.le_succ _) (ih ..)
      · exact Nat.le_refl _

theorem decode_size_pos {bs : List UInt8} (h : bs ≠ []) : 0 < (decode bs).2 := by
  cases bs with
  | nil => contradiction
  | cons b bs =>
    simp only [decode]
    split
    · exact Nat.one_pos
    · split
      · exact le_extend_size ..
      · exact Nat.one_pos

end Munch.Utf8
