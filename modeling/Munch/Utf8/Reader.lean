import Munch.Input
import Munch.Utf8.Decode

/-!
# Characters from chunks of bytes

A reader decodes bytes that arrive in chunks, at whatever places the stream was cut. Bytes
that begin a character which the chunk does not finish are kept pending. A chunk may instead
be a failure, which is reported once, after which reading goes on; no byte is lost to it. An
empty chunk looks like the end of the stream, and the stream stays at its end after the last
chunk. Bytes that are not UTF-8, a character cut off by the end included, are a failure too.

## Main definitions

* `Reader.read`: the next character.
* `Reader.toInput`: everything a reader yields up to its end or its first failure.
-/

namespace Munch

/-- What one access to a byte stream brings. -/
inductive Chunk where
  | bytes (bytes : List UInt8)
  | failure (error : ReadError)

/-- The number of bytes of a chunk. -/
def Chunk.size : Chunk → Nat
  | .bytes bs => bs.length
  | .failure _ => 0

/-- The number of bytes of several chunks. -/
def Chunk.sizes : List Chunk → Nat
  | [] => 0
  | c :: rest => c.size + sizes rest

/-- A decoder of a byte stream. -/
structure Reader where
  chunks : List Chunk
  /-- The rest of the current chunk. -/
  current : List UInt8 := []
  /-- The bytes of a character that is not finished. -/
  pending : List UInt8 := []

namespace Reader

/-- The reader of all bytes at once. -/
def ofBytes (bytes : List UInt8) : Reader := { chunks := [.bytes bytes] }

/-- Bytes that spell no character. -/
def invalid : ReadError := ⟨"InvalidData", "stream did not contain valid UTF-8"⟩

/-- The bytes at hand, which are those of the next chunk once the current one is used up. -/
def fill (r : Reader) : Except ReadError (List UInt8) × Reader :=
  match r.current, r.chunks with
  | [], .bytes bytes :: rest => (.ok bytes, { r with current := bytes, chunks := rest })
  | [], .failure e :: rest => (.error e, { r with chunks := rest })
  | current, _ => (.ok current, r)

/-- The number of bytes not yet taken. -/
def left (r : Reader) : Nat := r.current.length + Chunk.sizes r.chunks

/-- Whether bytes without a character may still begin one. -/
def isCut (size : Nat) (bytes : List UInt8) : Bool := size == bytes.length && size < 4

variable {r s : Reader}

theorem left_of_fill {bytes : List UInt8} (h : r.fill = (.ok bytes, s)) :
    s.current = bytes ∧ s.pending = r.pending ∧ s.left = r.left := by
  rw [fill] at h
  split at h <;> cases h <;> simp_all [left, Chunk.sizes, Chunk.size]

/-- Decode at the front of the bytes at hand. A byte that cannot begin a character stays. -/
def decodeFresh (r : Reader) (bytes : List UInt8) :
    Option (Except ReadError (Option Char)) × Reader :=
  match Utf8.decode bytes with
  | (some c, size) => (some (.ok (some c)), { r with current := bytes.drop size })
  | (none, size) =>
    if isCut size bytes then (none, { r with current := [], pending := bytes })
    else (some (.error invalid), r)

/-- Go on with the pending bytes by one more, which is used up in any case. -/
def decodePending (r : Reader) (b : UInt8) (rest : List UInt8) :
    Option (Except ReadError (Option Char)) × Reader :=
  match Utf8.decode (r.pending ++ [b]) with
  | (some c, _) => (some (.ok (some c)), { r with current := rest, pending := [] })
  | (none, size) =>
    let s := { r with current := rest, pending := r.pending ++ [b] }
    if isCut size s.pending then (none, s) else (some (.error invalid), s)

/-- One access to the stream. Brings a reply, or only bytes that leave a character unfinished. -/
def access (r : Reader) : Option (Except ReadError (Option Char)) × Reader :=
  match r.fill with
  | (.error e, s) => (some (.error e), s)
  | (.ok [], s) => (some (if s.pending.isEmpty then .ok none else .error invalid), s)
  | (.ok (b :: bs), s) =>
    if s.pending.isEmpty then s.decodeFresh (b :: bs) else s.decodePending b bs

/-- The reply is a character, or there is none yet. -/
def Progress (reply : Option (Except ReadError (Option Char))) : Prop :=
  ∀ t ∈ reply, ∃ c, t = .ok (some c)

theorem left_lt_of_access {reply : Option (Except ReadError (Option Char))}
    (h : r.access = (reply, s)) (progress : Progress reply) : s.left < r.left := by
  rw [access] at h
  split at h
  · cases h
    obtain ⟨c, hc⟩ := progress _ rfl
    cases hc
  · cases h
    obtain ⟨c, hc⟩ := progress _ rfl
    split at hc <;> cases hc
  · next b bs t filled =>
    obtain ⟨current, -, same⟩ := left_of_fill filled
    rw [← same]
    split at h
    · have pos := Utf8.decode_size_pos (List.cons_ne_nil b bs)
      rw [decodeFresh] at h
      split at h
      · next hd =>
        cases h
        rw [hd] at pos
        simp only [left, current, List.length_drop, List.length_cons] at pos ⊢
        omega
      · split at h
        · cases h
          simp [left, current]
        · cases h
          obtain ⟨c, hc⟩ := progress _ rfl
          cases hc
    · unfold decodePending at h
      split at h
      · cases h
        simp [left, current]
      · simp only at h
        split at h <;> cases h <;> simp [left, current]

/-- The next character; `none` at the end of the stream. -/
def read (r : Reader) : Except ReadError (Option Char) × Reader :=
  match h : r.access with
  | (some reply, s) => (reply, s)
  | (none, s) =>
    have := left_lt_of_access h nofun
    read s
termination_by r.left

theorem read_of_reply {reply : Except ReadError (Option Char)} (h : r.access = (some reply, s)) :
    r.read = (reply, s) := by
  rw [read]
  split <;> simp_all

theorem read_of_unfinished (h : r.access = (none, s)) : r.read = s.read := by
  rw [read]
  split <;> simp_all

/-- Every character uses up a byte. -/
theorem left_lt_of_read {c : Char} (h : r.read = (.ok (some c), s)) : s.left < r.left := by
  induction r using read.induct with
  | case1 r reply t ha =>
    rw [read_of_reply ha] at h
    cases h
    exact left_lt_of_access ha (by simp [Progress])
  | case2 r t ha lt ih =>
    rw [read_of_unfinished ha] at h
    exact Nat.lt_trans (ih h) lt

/-- Take up characters until the stream ends or fails; `taken` are those so far. -/
def drain (r : Reader) (taken : Array Char) : Array Char × Option ReadError :=
  match h : r.read with
  | (.ok (some c), s) =>
    have := left_lt_of_read h
    drain s (taken.push c)
  | (.ok none, _) => (taken, none)
  | (.error e, _) => (taken, some e)
termination_by r.left

/-- Everything a reader yields up to its end or its first failure, as an input. -/
def toInput (r : Reader) : Input :=
  { rest := (r.drain #[]).1.toList, failure := (r.drain #[]).2 }

end Reader
end Munch
