import Mathlib.Data.List.Basic
import Mathlib.Tactic.SplitIfs
import Munch.Utf8.Encoding

/-!
# Decoding finds what is encoded

Behind a first byte, the next one lies in a range that the first byte sets, and every later one in
the range of all of them. Bytes that keep to this spell a character that has just these bytes, and
every character has such bytes. So the decoder goes on exactly as long as the bytes could be those
of a character: where it stops short, no character goes on the same way, and what it has taken can
be completed by any bytes from the range.

## Main definitions

* `Utf8.Continues`, `Utf8.value`: the bytes behind the first one, and what they spell.
* `Utf8.decodes_decode`: decoding gives what is asked of it.
-/

namespace Munch.Utf8

open String (utf8EncodeChar)

/-- Bytes that go on with a character: the next one lies between `low` and `high`, every later one
between 0x80 and 0xBF. -/
def Continues (low high : Nat) : List UInt8 → Prop
  | [] => True
  | b :: bs => (low ≤ b.toNat ∧ b.toNat ≤ high) ∧ Continues 0x80 0xBF bs

/-- The code point that goes on with the bits of some bytes. -/
def value (bits : Nat) (bs : List UInt8) : Nat :=
  bs.foldl (fun v b => v * 64 + (b.toNat - 0x80)) bits

theorem value_nil (bits : Nat) : value bits [] = bits := List.foldl_nil

theorem value_cons (bits : Nat) (b : UInt8) (bs : List UInt8) :
    value bits (b :: bs) = value (bits * 64 + (b.toNat - 0x80)) bs := by
  unfold value
  rw [List.foldl_cons]

theorem lead?_eq_some_iff {b : UInt8} {l : Lead} : lead? b = some l ↔
    (0xC2 ≤ b.toNat ∧ b.toNat < 0xE0 ∧ l = ⟨b.toNat - 0xC0, 1, 0x80, 0xBF⟩) ∨
    (0xE0 ≤ b.toNat ∧ b.toNat < 0xF0 ∧ l = ⟨b.toNat - 0xE0, 2,
      if b.toNat = 0xE0 then 0xA0 else 0x80, if b.toNat = 0xED then 0x9F else 0xBF⟩) ∨
    (0xF0 ≤ b.toNat ∧ b.toNat ≤ 0xF4 ∧ l = ⟨b.toNat - 0xF0, 3,
      if b.toNat = 0xF0 then 0x90 else 0x80, if b.toNat = 0xF4 then 0x8F else 0xBF⟩) := by
  unfold lead?
  generalize b.toNat = n
  dsimp only
  split_ifs <;> grind

theorem toNat_ofNat {v : Nat} (h : v.isValidChar) : (Char.ofNat v).val.toNat = v := by
  unfold Char.ofNat
  rw [dif_pos h]
  rfl

theorem ofNat_eq {b : UInt8} {n : Nat} (h : n = b.toNat) : UInt8.ofNat n = b := by
  rw [h, UInt8.ofNat_toNat]

theorem encode_two {b x : UInt8} (lead : 0xC2 ≤ b.toNat ∧ b.toNat < 0xE0)
    (next : 0x80 ≤ x.toNat ∧ x.toNat ≤ 0xBF) :
    utf8EncodeChar (Char.ofNat ((b.toNat - 0xC0) * 64 + (x.toNat - 0x80))) = [b, x] := by
  generalize spelled : (b.toNat - 0xC0) * 64 + (x.toNat - 0x80) = v
  have valid : v.isValidChar := .inl (by omega)
  have long : ¬v ≤ 0x7f := by omega
  have fits : v ≤ 0x7ff := by omega
  simp only [utf8EncodeChar, toNat_ofNat valid, if_neg long, if_pos fits]
  rw [ofNat_eq (b := b) (by omega), ofNat_eq (b := x) (by omega)]

/-- Neither an overlong form nor a surrogate. -/
theorem encode_three {b x y : UInt8} (lead : 0xE0 ≤ b.toNat ∧ b.toNat < 0xF0)
    (next : 0x80 ≤ x.toNat ∧ x.toNat ≤ 0xBF) (overlong : b.toNat = 0xE0 → 0xA0 ≤ x.toNat)
    (surrogate : b.toNat = 0xED → x.toNat ≤ 0x9F) (last : 0x80 ≤ y.toNat ∧ y.toNat ≤ 0xBF) :
    utf8EncodeChar
      (Char.ofNat (((b.toNat - 0xE0) * 64 + (x.toNat - 0x80)) * 64 + (y.toNat - 0x80))) =
        [b, x, y] := by
  generalize spelled : ((b.toNat - 0xE0) * 64 + (x.toNat - 0x80)) * 64 + (y.toNat - 0x80) = v
  have valid : v.isValidChar := by
    simp only [Nat.isValidChar]
    omega
  have longer : ¬v ≤ 0x7f := by omega
  have long : ¬v ≤ 0x7ff := by omega
  have fits : v ≤ 0xffff := by omega
  simp only [utf8EncodeChar, toNat_ofNat valid, if_neg longer, if_neg long, if_pos fits]
  rw [ofNat_eq (b := b) (by omega), ofNat_eq (b := x) (by omega), ofNat_eq (b := y) (by omega)]

/-- Neither an overlong form nor past the last code point. -/
theorem encode_four {b x y z : UInt8} (lead : 0xF0 ≤ b.toNat ∧ b.toNat ≤ 0xF4)
    (next : 0x80 ≤ x.toNat ∧ x.toNat ≤ 0xBF) (overlong : b.toNat = 0xF0 → 0x90 ≤ x.toNat)
    (past : b.toNat = 0xF4 → x.toNat ≤ 0x8F) (third : 0x80 ≤ y.toNat ∧ y.toNat ≤ 0xBF)
    (last : 0x80 ≤ z.toNat ∧ z.toNat ≤ 0xBF) :
    utf8EncodeChar (Char.ofNat
      ((((b.toNat - 0xF0) * 64 + (x.toNat - 0x80)) * 64 + (y.toNat - 0x80)) * 64 +
        (z.toNat - 0x80))) = [b, x, y, z] := by
  generalize spelled : (((b.toNat - 0xF0) * 64 + (x.toNat - 0x80)) * 64 + (y.toNat - 0x80)) * 64 +
    (z.toNat - 0x80) = v
  have valid : v.isValidChar := by
    simp only [Nat.isValidChar]
    omega
  have longest : ¬v ≤ 0x7f := by omega
  have longer : ¬v ≤ 0x7ff := by omega
  have long : ¬v ≤ 0xffff := by omega
  simp only [utf8EncodeChar, toNat_ofNat valid, if_neg longest, if_neg longer, if_neg long]
  rw [ofNat_eq (b := b) (by omega), ofNat_eq (b := x) (by omega), ofNat_eq (b := y) (by omega),
    ofNat_eq (b := z) (by omega)]

/-- What a first byte and the bytes that go on with it spell is a character with these bytes. -/
theorem encode_of_lead {b : UInt8} {l : Lead} {tail : List UInt8} (h : lead? b = some l)
    (continues : Continues l.low l.high tail) (full : tail.length = l.following) :
    utf8EncodeChar (Char.ofNat (value l.bits tail)) = b :: tail := by
  obtain ⟨low, high, rfl⟩ | ⟨low, high, rfl⟩ | ⟨low, high, rfl⟩ := lead?_eq_some_iff.1 h
  · obtain ⟨x, rfl⟩ := List.length_eq_one_iff.1 full
    rw [value_cons, value_nil]
    exact encode_two ⟨low, high⟩ continues.1
  · obtain ⟨x, y, rfl⟩ := List.length_eq_two.1 full
    obtain ⟨⟨lowest, highest⟩, last, -⟩ := continues
    dsimp only at lowest highest
    rw [value_cons, value_cons, value_nil]
    exact encode_three ⟨low, high⟩ (by grind) (by grind) (by grind) last
  · obtain ⟨x, y, z, rfl⟩ := List.length_eq_three.1 full
    obtain ⟨⟨lowest, highest⟩, third, last, -⟩ := continues
    dsimp only at lowest highest
    rw [value_cons, value_cons, value_cons, value_nil]
    exact encode_four ⟨low, high⟩ (by grind) (by grind) (by grind) third last

theorem toNat_byte {n : Nat} (h : n < 256) : (UInt8.ofNat n).toNat = n := by
  rw [UInt8.toNat_ofNat', Nat.mod_eq_of_lt h]

/-- A character beyond ASCII has a first byte and bytes that go on with it. -/
theorem exists_lead (c : Char) (beyond : ¬c.val.toNat ≤ 0x7f) :
    ∃ b l tail, utf8EncodeChar c = b :: tail ∧ lead? b = some l ∧ Continues l.low l.high tail ∧
      tail.length = l.following ∧ value l.bits tail = c.val.toNat := by
  have valid : c.val.toNat < 0xD800 ∨ 0xDFFF < c.val.toNat ∧ c.val.toNat < 0x110000 := c.valid
  simp only [utf8EncodeChar, if_neg beyond]
  generalize c.val.toNat = v at valid beyond
  split
  · next fits =>
    have first := toNat_byte (n := v / 64 % 32 + 0xC0) (by omega)
    have next := toNat_byte (n := v % 64 + 0x80) (by omega)
    refine ⟨_, _, _, rfl, lead?_eq_some_iff.2 (.inl ⟨by omega, by omega, rfl⟩), ?_, rfl, ?_⟩
    · exact ⟨by dsimp only; omega, trivial⟩
    · rw [value_cons, value_nil, first, next]
      dsimp only
      omega
  · split
    · next long fits =>
      have first := toNat_byte (n := v / 4096 % 16 + 0xE0) (by omega)
      have next := toNat_byte (n := v / 64 % 64 + 0x80) (by omega)
      have last := toNat_byte (n := v % 64 + 0x80) (by omega)
      refine ⟨_, _, _, rfl, lead?_eq_some_iff.2 (.inr (.inl ⟨by omega, by omega, rfl⟩)), ?_, rfl,
        ?_⟩
      · dsimp only [Continues]
        rw [first, next]
        refine ⟨?_, by omega, trivial⟩
        constructor <;> split <;> omega
      · rw [value_cons, value_cons, value_nil, first, next, last]
        dsimp only
        omega
    · next long =>
      have first := toNat_byte (n := v / 262144 % 8 + 0xF0) (by omega)
      have next := toNat_byte (n := v / 4096 % 64 + 0x80) (by omega)
      have third := toNat_byte (n := v / 64 % 64 + 0x80) (by omega)
      have last := toNat_byte (n := v % 64 + 0x80) (by omega)
      refine ⟨_, _, _, rfl, lead?_eq_some_iff.2 (.inr (.inr ⟨by omega, by omega, rfl⟩)), ?_, rfl,
        ?_⟩
      · dsimp only [Continues]
        rw [first, next]
        refine ⟨?_, by omega, by omega, trivial⟩
        constructor <;> split <;> omega
      · rw [value_cons, value_cons, value_cons, value_nil, first, next, third, last]
        dsimp only
        omega

theorem encode_of_ascii {b : UInt8} (h : b.toNat < 0x80) :
    utf8EncodeChar (Char.ofNat b.toNat) = [b] := by
  have valid : b.toNat.isValidChar := by left; omega
  have fits : b.toNat ≤ 0x7f := by omega
  simp only [utf8EncodeChar, toNat_ofNat valid, if_pos fits]
  rw [UInt8.ofNat_toNat]

/-! ## Bytes behind the first -/

variable {b x : UInt8} {l : Lead} {bits low high size k n : Nat} {tail rest bs : List UInt8}
  {c : Char}

theorem extend_cons (fits : low ≤ x.toNat ∧ x.toNat ≤ high) (bits size k : Nat) (bs : List UInt8) :
    extend bits low high size (k + 1) (x :: bs) =
      extend (bits * 64 + (x.toNat - 0x80)) 0x80 0xBF (size + 1) k bs := by
  rw [extend, if_pos (by simp [fits])]

theorem extend_full (h : Continues low high tail) (bits size : Nat) (rest : List UInt8) :
    extend bits low high size tail.length (tail ++ rest) =
      (some (Char.ofNat (value bits tail)), size + tail.length) := by
  induction tail generalizing bits low high size with
  | nil => rw [List.nil_append, List.length_nil, extend, value_nil, Nat.add_zero]
  | cons x tail ih =>
    rw [List.length_cons, List.cons_append, extend_cons h.1, ih h.2, value_cons,
      Nat.add_right_comm, Nat.add_assoc]

/-- The bytes come to an end, or the next one does not go on with them. -/
theorem extend_stuck (h : Continues low high tail) (short : tail.length < k)
    (stuck : ∀ x, rest.head? = some x → ¬Continues low high (tail ++ [x])) (bits size : Nat) :
    extend bits low high size k (tail ++ rest) = (none, size + tail.length) := by
  obtain ⟨k, rfl⟩ := Nat.exists_eq_succ_of_ne_zero (Nat.ne_zero_of_lt short)
  induction tail generalizing bits low high size k with
  | nil =>
    cases rest with
    | nil => rfl
    | cons x rest =>
      have unfit : ¬(low ≤ x.toNat ∧ x.toNat ≤ high) := fun fits => stuck x rfl ⟨fits, trivial⟩
      rw [List.nil_append, extend, if_neg (by simpa using unfit)]
      rfl
  | cons x tail ih =>
    have more : k ≠ 0 := Nat.ne_zero_of_lt (Nat.lt_of_succ_lt_succ short)
    obtain ⟨k, rfl⟩ := Nat.exists_eq_succ_of_ne_zero more
    rw [List.cons_append, extend_cons h.1,
      ih h.2 (fun y next goes => stuck y next ⟨h.1, goes⟩) _ _ _ (Nat.lt_of_succ_lt_succ short),
      List.length_cons, Nat.add_right_comm, Nat.add_assoc]

/-- The longest run of bytes that go on. -/
theorem exists_run (low high k : Nat) (bs : List UInt8) :
    ∃ tail rest, bs = tail ++ rest ∧ Continues low high tail ∧ (tail.length = k ∨
      tail.length < k ∧ ∀ x, rest.head? = some x → ¬Continues low high (tail ++ [x])) := by
  induction k generalizing low high bs with
  | zero => exact ⟨[], bs, rfl, trivial, .inl rfl⟩
  | succ k ih =>
    cases bs with
    | nil => exact ⟨[], [], rfl, trivial, .inr ⟨Nat.succ_pos k, nofun⟩⟩
    | cons b bs =>
      by_cases fits : low ≤ b.toNat ∧ b.toNat ≤ high
      · obtain ⟨tail, rest, rfl, continues, stops⟩ := ih 0x80 0xBF bs
        refine ⟨b :: tail, rest, rfl, ⟨fits, continues⟩, ?_⟩
        refine stops.imp (congrArg Nat.succ) fun ⟨short, stuck⟩ => ?_
        exact ⟨Nat.succ_lt_succ short, fun x next goes => stuck x next goes.2⟩
      · refine ⟨[], b :: bs, rfl, trivial, .inr ⟨Nat.succ_pos k, fun x next goes => ?_⟩⟩
        cases next
        exact fits goes.1

/-! ## Decoding -/

theorem not_ascii_of_lead (h : lead? b = some l) : ¬b.toNat < 0x80 := by
  obtain ⟨low, -⟩ | ⟨low, -⟩ | ⟨low, -⟩ := lead?_eq_some_iff.1 h <;> omega

theorem decode_of_ascii (h : b.toNat < 0x80) (bs : List UInt8) :
    decode (b :: bs) = (some (Char.ofNat b.toNat), 1) := by
  rw [decode, if_pos h]

theorem decode_of_lead (h : lead? b = some l) (bs : List UInt8) :
    decode (b :: bs) = extend l.bits l.low l.high 1 l.following bs := by
  rw [decode, if_neg (not_ascii_of_lead h), h]

theorem decode_of_no_lead (beyond : ¬b.toNat < 0x80) (h : lead? b = none) (bs : List UInt8) :
    decode (b :: bs) = (none, 1) := by
  rw [decode, if_neg beyond, h]

theorem decode_full (h : lead? b = some l) (continues : Continues l.low l.high tail)
    (full : tail.length = l.following) (rest : List UInt8) :
    decode (b :: tail ++ rest) =
      (some (Char.ofNat (value l.bits tail)), (b :: tail).length) := by
  rw [List.cons_append, decode_of_lead h, ← full, extend_full continues, List.length_cons,
    Nat.add_comm]

theorem decode_stuck (h : lead? b = some l) (continues : Continues l.low l.high tail)
    (short : tail.length < l.following)
    (stuck : ∀ x, rest.head? = some x → ¬Continues l.low l.high (tail ++ [x])) :
    decode (b :: tail ++ rest) = (none, (b :: tail).length) := by
  rw [List.cons_append, decode_of_lead h, extend_stuck continues short stuck, List.length_cons,
    Nat.add_comm]

/-- A character is found by its bytes. -/
theorem decode_encode (c : Char) (bs : List UInt8) :
    decode (utf8EncodeChar c ++ bs) = (some c, (utf8EncodeChar c).length) := by
  by_cases beyond : c.val.toNat ≤ 0x7f
  · have single : utf8EncodeChar c = [UInt8.ofNat c.val.toNat] := by
      simp only [utf8EncodeChar, if_pos beyond]
    have byte := toNat_byte (n := c.val.toNat) (by omega)
    rw [single, List.singleton_append, decode_of_ascii (by omega), byte]
    exact Prod.ext (congrArg some c.ofNat_toNat) rfl
  · obtain ⟨b, l, tail, bytes, lead, continues, full, spelled⟩ := exists_lead c beyond
    rw [bytes, decode_full lead continues full, spelled]
    exact Prod.ext (congrArg some c.ofNat_toNat) rfl

/-- How decoding comes out: a character is found by its bytes, or no byte begins one here, or the
bytes that go on with the first one end too early. -/
inductive Decoded : List UInt8 → Option Char × Nat → Prop where
  | nil : Decoded [] (none, 0)
  | found (c : Char) (rest : List UInt8) :
    Decoded (utf8EncodeChar c ++ rest) (some c, (utf8EncodeChar c).length)
  | alone {b : UInt8} (rest : List UInt8) : ¬b.toNat < 0x80 → lead? b = none →
    Decoded (b :: rest) (none, 1)
  | stuck {b : UInt8} {l : Lead} {tail rest : List UInt8} : lead? b = some l →
    Continues l.low l.high tail → tail.length < l.following →
    (∀ x, rest.head? = some x → ¬Continues l.low l.high (tail ++ [x])) →
    Decoded (b :: tail ++ rest) (none, (b :: tail).length)

theorem decoded_decode (bs : List UInt8) : Decoded bs (decode bs) := by
  cases bs with
  | nil => exact .nil
  | cons b bs =>
    by_cases ascii : b.toNat < 0x80
    · have bytes := encode_of_ascii ascii
      have found := Decoded.found (Char.ofNat b.toNat) bs
      rw [bytes] at found
      rwa [decode_of_ascii ascii]
    · cases lead : lead? b with
      | none =>
        rw [decode_of_no_lead ascii lead]
        exact .alone bs ascii lead
      | some l =>
        obtain ⟨tail, rest, rfl, continues, full | ⟨short, stuck⟩⟩ :=
          exists_run l.low l.high l.following bs
        · have bytes := encode_of_lead lead continues full
          have found := Decoded.found (Char.ofNat (value l.bits tail)) rest
          rw [bytes] at found
          rwa [← List.cons_append, decode_full lead continues full]
        · rw [← List.cons_append, decode_stuck lead continues short stuck]
          exact .stuck lead continues short stuck

theorem continues_append (h : Continues 0x80 0xBF tail) (k : Nat) :
    Continues 0x80 0xBF (tail ++ List.replicate k 0x80) := by
  induction tail with
  | nil =>
    induction k with
    | zero => trivial
    | succ k ih => exact ⟨by decide, ih⟩
  | cons x tail ih => exact ⟨h.1, ih h.2⟩

/-- Bytes that end too early are the first of some character, unless only one is there. -/
theorem begins_of_short (lead : lead? b = some l) (continues : Continues l.low l.high tail)
    (short : tail.length < l.following) (more : tail ≠ []) : Begins (b :: tail) := by
  obtain ⟨x, tail, rfl⟩ := List.exists_cons_of_ne_nil more
  let missing : List UInt8 := List.replicate (l.following - (x :: tail).length) 0x80
  have completed : Continues l.low l.high (x :: tail ++ missing) :=
    ⟨continues.1, continues_append continues.2 _⟩
  have full : (x :: tail ++ missing).length = l.following := by
    rw [List.length_append, List.length_replicate]
    omega
  exact ⟨_, missing, (encode_of_lead lead completed full).symm⟩

theorem decode_ne_none (c : Char) (n : Nat) : decode (utf8EncodeChar c) ≠ (none, n) := by
  intro missed
  have found := decode_encode c []
  rw [List.append_nil, missed] at found
  cases found

/-- Where decoding stops short, no character goes on with more of the bytes. -/
theorem Decoded.longest (h : Decoded bs (none, n)) (k : Nat) (within : k ≤ bs.length)
    (begins : Begins (bs.take k)) : k ≤ n := by
  obtain ⟨c, more, bytes⟩ := begins
  by_contra beyond
  cases h with
  | nil => exact beyond within
  | @alone b rest ascii no_lead =>
    obtain ⟨k, rfl⟩ := Nat.exists_eq_succ_of_ne_zero (n := k) (by omega)
    apply decode_ne_none c 1
    rw [← bytes, List.take_succ_cons, List.cons_append]
    exact decode_of_no_lead ascii no_lead _
  | @stuck b l tail rest lead continues short stops =>
    obtain ⟨k, rfl⟩ := Nat.exists_eq_add_of_lt (Nat.lt_of_not_le beyond)
    cases rest with
    | nil =>
      simp only [List.append_nil, List.length_cons] at within
      omega
    | cons x rest =>
      apply decode_ne_none c (b :: tail).length
      rw [← bytes, Nat.add_assoc, List.take_length_add_append, List.take_succ_cons,
        List.append_assoc]
      exact decode_stuck lead continues short fun y next => stops y (by simpa using next)

/-- Decoding gives what is asked of it. -/
theorem decodes_decode : Decodes decode where
  found bs c n := by
    constructor
    · intro found
      have decoded := decoded_decode bs
      rw [found] at decoded
      cases decoded with
      | found _ rest => exact ⟨⟨rest, rfl⟩, rfl⟩
    · rintro ⟨⟨rest, rfl⟩, rfl⟩
      exact decode_encode c rest
  within bs n missed := by
    have decoded := decoded_decode bs
    rw [missed] at decoded
    cases decoded with
    | nil => exact ⟨Nat.le_refl _, absurd rfl⟩
    | alone rest => exact ⟨Nat.succ_le_succ (Nat.zero_le _), fun _ => Nat.le_refl _⟩
    | stuck => exact ⟨by simp, fun _ => Nat.succ_le_succ (Nat.zero_le _)⟩
  begins bs n missed more := by
    have decoded := decoded_decode bs
    rw [missed] at decoded
    cases decoded with
    | nil => exact absurd more (by decide)
    | alone => exact absurd more (by decide)
    | @stuck b l tail rest lead continues short =>
      rw [List.take_left]
      refine begins_of_short lead continues short ?_
      rintro rfl
      exact absurd more (Nat.lt_irrefl 1)
  longest bs n missed k within begins := by
    have decoded := decoded_decode bs
    rw [missed] at decoded
    exact decoded.longest k within begins

end Munch.Utf8
