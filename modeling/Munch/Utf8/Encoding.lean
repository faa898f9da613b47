import Munch.Utf8.Decode

/-!
# Encoded characters

What decoding has to find, said by the encoding alone: the character whose bytes come first, or how
many bytes could be the first of one. This leaves a decoder no choice.

## Main definitions

* `Utf8.encode`: the bytes of a text.
* `Utf8.Decodes`: what is asked of a decoder of the first character.
-/

namespace Munch.Utf8

open String (utf8EncodeChar)

/-- The bytes of a text. -/
def encode (cs : List Char) : List UInt8 := cs.flatMap utf8EncodeChar

/-- The bytes are the first of a character, or all of it. -/
def Begins (bs : List UInt8) : Prop := ∃ c, bs <+: utf8EncodeChar c

/-- A decoder gives the first character with the number of its bytes. Where there is none, it gives
the number of bytes at the front that could begin one, but at least one if there are bytes. -/
structure Decodes (d : List UInt8 → Option Char × Nat) : Prop where
  found : ∀ bs c n, d bs = (some c, n) ↔ utf8EncodeChar c <+: bs ∧ n = (utf8EncodeChar c).length
  within : ∀ bs n, d bs = (none, n) → n ≤ bs.length ∧ (bs ≠ [] → 1 ≤ n)
  begins : ∀ bs n, d bs = (none, n) → 1 < n → Begins (bs.take n)
  longest : ∀ bs n, d bs = (none, n) → ∀ k ≤ bs.length, Begins (bs.take k) → k ≤ n

variable {d d' : List UInt8 → Option Char × Nat} {bs bs' : List UInt8} {c : Char} {n n' : Nat}

@[simp] theorem encode_nil : encode [] = [] := rfl

@[simp] theorem encode_cons (c : Char) (cs : List Char) :
    encode (c :: cs) = utf8EncodeChar c ++ encode cs := rfl

theorem Decodes.le_of_none (h : Decodes d) (h' : Decodes d') (missed : d bs = (none, n))
    (missed' : d' bs = (none, n')) : n ≤ n' := by
  obtain ⟨le, -⟩ := h.within bs n missed
  by_cases more : 1 < n
  · exact h'.longest bs n' missed' n le (h.begins bs n missed more)
  · cases bs with
    | nil => exact Nat.le_trans le (Nat.zero_le _)
    | cons b bs => exact Nat.le_trans (Nat.le_of_not_lt more) ((h'.within _ _ missed').2 nofun)

/-- There is one decoder only. -/
theorem Decodes.unique (h : Decodes d) (h' : Decodes d') : d = d' := by
  funext bs
  rcases found : d bs with ⟨_ | c, n⟩
  · rcases found' : d' bs with ⟨_ | c, n'⟩
    · rw [Nat.le_antisymm (h.le_of_none h' found found') (h'.le_of_none h found' found)]
    · rw [(h.found bs c n').2 ((h'.found bs c n').1 found')] at found
      cases found
  · exact ((h'.found bs c n).2 ((h.found bs c n).1 found)).symm

end Munch.Utf8
