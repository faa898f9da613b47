import Munch.Proofs.Decoding
import Munch.Utf8.Reader

/-!
# Reading does not depend on the chunks

What a reader brings is determined by the bytes ahead of it: those that are pending, the rest of the
current chunk, and the chunks to come. Between the accesses of one read bytes only move from one of
these places to another, and a read takes away just the bytes of its character. Bytes that end a
chunk stay pending as long as they may begin a character, be they cut off there or invalid: either
way the bytes behind them decide.

## Main definitions

* `Reader.ahead`, `Reader.Fed`: the bytes ahead, and a reader whose stream brings nothing but bytes.
* `Reader.replies`: the replies to reads in a row.
* `Reader.reads_longest_valid`: what reads bring over chunks of bytes.
-/

namespace Munch

open Utf8 (decode encode Begins Decodes decodes_decode)
open String (utf8EncodeChar)

namespace Utf8

variable {bs rest : List UInt8} {c : Char} {n : Nat} {cs more : List Char}

/-- Bytes that are not all taken are refused, whatever comes behind them. -/
theorem decode_append_of_refused (h : decode bs = (none, n)) (refused : n < bs.length)
    (rest : List UInt8) : (decode (bs ++ rest)).1 = none := by
  rcases found : decode (bs ++ rest) with ⟨_ | c, m⟩
  · rfl
  · have first := ((decodes_decode.found _ c m).1 found).1
    rcases List.prefix_or_prefix_of_prefix first (List.prefix_append bs rest) with within | beyond
    · have here := (decodes_decode.found bs c _).2 ⟨within, rfl⟩
      rw [h] at here
      cases here
    · have begins : Begins (bs.take bs.length) := ⟨c, by rwa [List.take_length]⟩
      exact absurd (decodes_decode.longest bs n h _ (Nat.le_refl _) begins) (Nat.not_le.2 refused)

/-- A character that one more byte completes takes all of them. -/
theorem eq_encode_of_completed {b : UInt8} (unfinished : (decode bs).1 = none)
    (h : decode (bs ++ [b]) = (some c, n)) : bs ++ [b] = utf8EncodeChar c := by
  rcases List.prefix_concat_iff.1 ((decodes_decode.found _ c n).1 h).1 with all | within
  · exact all.symm
  · rw [(decodes_decode.found bs c _).2 ⟨within, rfl⟩] at unfinished
    cases unfinished

/-- Four bytes that could begin a character are one. -/
theorem size_lt_four (h : decode bs = (none, n)) : n < 4 := by
  by_contra large
  have whole : (bs.take n).length = n := by
    rw [List.length_take, Nat.min_eq_left (decodes_decode.within bs n h).1]
  obtain ⟨c, first⟩ := decodes_decode.begins bs n h (by omega)
  have bounded := c.utf8Size_le_four
  have fits : (utf8EncodeChar c).length ≤ (bs.take n).length := by
    rw [String.length_utf8EncodeChar, whole]
    omega
  have all : utf8EncodeChar c <+: bs :=
    first.eq_of_length_le fits ▸ List.take_prefix n bs
  rw [(decodes_decode.found bs c _).2 ⟨all, rfl⟩] at h
  cases h

theorem refused_of_not_cut (h : decode bs = (none, n)) (whole : ¬Reader.isCut n bs = true) :
    n < bs.length := by
  have within := (decodes_decode.within bs n h).1
  have small := size_lt_four h
  simp only [Reader.isCut, Bool.and_eq_true, beq_iff_eq, decide_eq_true_eq] at whole
  omega

end Utf8

/-- The bytes of a chunk, none if it is a failure. -/
def Chunk.content : Chunk → List UInt8
  | .bytes content => content
  | .failure _ => []

namespace Reader

/-- The bytes that are not read yet. -/
def ahead (r : Reader) : List UInt8 := r.pending ++ r.current ++ r.chunks.flatMap Chunk.content

/-- Every access to the stream brings bytes until it ends, and those that are pending are no
character. -/
structure Fed (r : Reader) : Prop where
  chunks : ∀ c ∈ r.chunks, ∃ b bs, c = .bytes (b :: bs)
  unfinished : (decode r.pending).1 = none

/-- What a read brings where no character comes next. -/
def stop (bs : List UInt8) : Except ReadError (Option Char) :=
  if bs = [] then .ok none else .error invalid

/-- The reply to a read with `bs` ahead, and the bytes that it leaves. -/
inductive Brings (bs : List UInt8) : Except ReadError (Option Char) → List UInt8 → Prop where
  | char {c : Char} {rest : List UInt8} : bs = utf8EncodeChar c ++ rest →
    Brings bs (.ok (some c)) rest
  | stop : (decode bs).1 = none → Brings bs (stop bs) bs

variable {r s : Reader} {bs rest : List UInt8} {c : Char} {n : Nat}
  {reply : Except ReadError (Option Char)}

theorem brings_char (h : decode bs = (some c, n)) (rest : List UInt8) :
    Brings (bs ++ rest) (.ok (some c)) (bs.drop n ++ rest) := by
  obtain ⟨⟨later, rfl⟩, rfl⟩ := (decodes_decode.found bs c n).1 h
  rw [List.drop_left, List.append_assoc]
  exact .char rfl

theorem brings_invalid (h : decode bs = (none, n)) (refused : n < bs.length) (rest : List UInt8) :
    Brings (bs ++ rest) (.error invalid) (bs ++ rest) := by
  have more : bs ++ rest ≠ [] := by
    rintro empty
    rw [(List.append_eq_nil_iff.1 empty).1] at refused
    cases refused
  have stops := Brings.stop (Utf8.decode_append_of_refused h refused rest)
  rwa [stop, if_neg more] at stops

/-- Bytes at hand come from ahead; there are none only at the end of the stream. -/
theorem Fed.fill (h : Fed r) : ∃ s, r.fill = (.ok s.current, s) ∧ Fed s ∧ s.ahead = r.ahead ∧
    (s.current = [] → s.chunks = []) := by
  obtain ⟨chunks, current, pending⟩ := r
  cases current with
  | cons b bs => exact ⟨_, rfl, h, rfl, nofun⟩
  | nil =>
    cases chunks with
    | nil => exact ⟨_, rfl, h, rfl, fun _ => rfl⟩
    | cons c chunks =>
      obtain ⟨⟨b, bs, rfl⟩, later⟩ := List.forall_mem_cons.1 h.chunks
      refine ⟨{ chunks, current := b :: bs, pending }, rfl, ⟨later, h.unfinished⟩, ?_, nofun⟩
      simp [ahead, Chunk.content]

/-- What an access with `bs` ahead comes to: it brings a reply, or bytes become pending. -/
inductive Accessed (bs : List UInt8) : Option (Except ReadError (Option Char)) × Reader → Prop where
  | reply {reply : Except ReadError (Option Char)} {s : Reader} : Fed s →
    Brings bs reply s.ahead → Accessed bs (some reply, s)
  | moved {s : Reader} : Fed s → s.ahead = bs → Accessed bs (none, s)

/-- Without pending bytes the next character is found in the current chunk, or the chunk becomes
pending as a whole. -/
theorem Fed.decodeFresh (h : Fed r) (idle : r.pending = []) :
    Accessed r.ahead (r.decodeFresh r.current) := by
  have split : r.ahead = r.current ++ r.chunks.flatMap Chunk.content := by
    rw [ahead, idle, List.nil_append]
  rw [Reader.decodeFresh]
  rcases found : decode r.current with ⟨_ | c, n⟩
  · dsimp only
    by_cases cut : isCut n r.current = true
    · rw [if_pos cut]
      refine .moved ⟨h.chunks, congrArg Prod.fst found⟩ ?_
      rw [split, ahead, List.append_nil]
    · rw [if_neg cut]
      refine .reply h ?_
      rw [split]
      exact brings_invalid found (Utf8.refused_of_not_cut found cut) _
  · refine .reply ⟨h.chunks, h.unfinished⟩ ?_
    rw [split, ahead, idle, List.nil_append]
    exact brings_char found _

/-- One more byte completes a character with all that are pending, or becomes pending too. -/
theorem Fed.decodePending (h : Fed r) {b : UInt8} (current : r.current = b :: rest) :
    Accessed r.ahead (r.decodePending b rest) := by
  have split : r.ahead = (r.pending ++ [b]) ++ (rest ++ r.chunks.flatMap Chunk.content) := by
    rw [ahead, current]
    simp
  rw [Reader.decodePending]
  rcases found : decode (r.pending ++ [b]) with ⟨_ | c, n⟩
  · have unfinished := congrArg Prod.fst found
    dsimp only
    by_cases cut : isCut n (r.pending ++ [b]) = true
    · rw [if_pos cut]
      refine .moved ⟨h.chunks, unfinished⟩ ?_
      rw [split, ahead, List.append_assoc (r.pending ++ [b])]
    · rw [if_neg cut]
      refine .reply ⟨h.chunks, unfinished⟩ ?_
      rw [split, ahead, List.append_assoc (r.pending ++ [b])]
      exact brings_invalid found (Utf8.refused_of_not_cut found cut) _
  · have all := Utf8.eq_encode_of_completed h.unfinished found
    refine .reply ⟨h.chunks, rfl⟩ ?_
    rw [split, all]
    exact .char rfl

theorem Fed.access (h : Fed r) : Accessed r.ahead r.access := by
  obtain ⟨s, filled, fed, same, ended⟩ := h.fill
  rw [Reader.access, filled, ← same]
  cases current : s.current with
  | nil =>
    have last : s.ahead = s.pending := by
      rw [ahead, current, ended current, List.append_nil, List.flatMap_nil, List.append_nil]
    have stops : (if s.pending.isEmpty then .ok none else .error invalid) = stop s.ahead := by
      rw [stop, last]
      simp
    refine .reply fed ?_
    rw [stops]
    exact .stop (last ▸ fed.unfinished)
  | cons b bs =>
    dsimp only
    cases idle : s.pending.isEmpty with
    | true =>
      rw [if_pos rfl, ← current]
      exact fed.decodeFresh (List.isEmpty_iff.1 idle)
    | false =>
      rw [if_neg Bool.false_ne_true]
      exact fed.decodePending current

/-- A read takes away the bytes of the next character, and no others. -/
theorem Fed.read (h : Fed r) : Fed r.read.2 ∧ Brings r.ahead r.read.1 r.read.2.ahead := by
  induction r using Reader.read.induct with
  | case1 r reply s accessed =>
    have access := h.access
    rw [accessed] at access
    rw [read_of_reply accessed]
    cases access with
    | reply fed brings => exact ⟨fed, brings⟩
  | case2 r s accessed _ ih =>
    have access := h.access
    rw [accessed] at access
    rw [read_of_unfinished accessed]
    cases access with
    | moved fed same =>
      rw [← same]
      exact ih fed

/-! ## Reads in a row -/

/-- The replies to reads in a row. -/
def replies (r : Reader) : Nat → List (Except ReadError (Option Char))
  | 0 => []
  | n + 1 => r.read.1 :: r.read.2.replies n

/-- The replies that bring the characters of a text. -/
def brought (cs : List Char) : List (Except ReadError (Option Char)) :=
  cs.map fun c => .ok (some c)

theorem brings_of_unfinished (h : (decode bs).1 = none) (brings : Brings bs reply rest) :
    reply = stop bs ∧ rest = bs := by
  cases brings with
  | char split =>
    rw [split, Utf8.decode_encode] at h
    cases h
  | stop => exact ⟨rfl, rfl⟩

theorem brings_of_char (brings : Brings (utf8EncodeChar c ++ bs) reply rest) :
    reply = .ok (some c) ∧ rest = bs := by
  cases brings with
  | @char d _ split =>
    have found := Utf8.decode_encode c bs
    rw [split, Utf8.decode_encode] at found
    cases found
    exact ⟨rfl, (List.append_cancel_left split).symm⟩
  | stop missed =>
    rw [Utf8.decode_encode] at missed
    cases missed

/-- What fills up a list shows only as far as it is taken. -/
theorem take_append_replicate {α : Type} (xs : List α) (x : α) {m n : Nat} (le : m ≤ n) :
    (xs ++ List.replicate n x).take m = (xs ++ List.replicate m x).take m := by
  rw [List.take_append, List.take_append, List.take_replicate, List.take_replicate]
  congr 2
  omega

/-- Reads bring the characters whose bytes are ahead, and then for ever what the bytes behind them
come to. -/
theorem Fed.replies (h : Fed r) (cs : List Char) (ahead : r.ahead = encode cs ++ rest)
    (unfinished : (decode rest).1 = none) (n : Nat) :
    r.replies n = (brought cs ++ List.replicate n (stop rest)).take n := by
  induction n generalizing r cs with
  | zero => rfl
  | succ n ih =>
    obtain ⟨fed, brings⟩ := h.read
    rw [ahead] at brings
    rw [Reader.replies]
    cases cs with
    | nil =>
      obtain ⟨reply, left⟩ := brings_of_unfinished unfinished brings
      rw [reply, ih fed [] left]
      simp [brought, List.replicate_succ]
    | cons c cs =>
      rw [Utf8.encode_cons, List.append_assoc] at brings
      obtain ⟨reply, left⟩ := brings_of_char brings
      rw [reply, ih fed cs left]
      rw [← take_append_replicate _ _ (Nat.le_succ n)]
      rfl

/-- All bytes are those of some characters and a rest that no character begins. -/
theorem exists_split (bs : List UInt8) :
    ∃ cs rest, bs = encode cs ++ rest ∧ (decode rest).1 = none := by
  induction size : bs.length using Nat.strongRecOn generalizing bs with
  | _ n ih =>
    rcases found : decode bs with ⟨_ | c, k⟩
    · exact ⟨[], bs, rfl, by rw [found]⟩
    · obtain ⟨⟨later, rfl⟩, rfl⟩ := (decodes_decode.found bs c k).1 found
      have shorter : later.length < n := by
        rw [← size, List.length_append, String.length_utf8EncodeChar]
        exact Nat.lt_add_of_pos_left c.utf8Size_pos
      obtain ⟨cs, rest, rfl, unfinished⟩ := ih _ shorter later rfl
      exact ⟨c :: cs, rest, by simp, unfinished⟩

/-- Characters whose bytes come first are the first characters. -/
theorem prefix_of_encode {cs more : List Char} (unfinished : (decode rest).1 = none)
    (h : encode more <+: encode cs ++ rest) : more <+: cs := by
  induction more generalizing cs with
  | nil => exact List.nil_prefix
  | cons d more ih =>
    have first : utf8EncodeChar d <+: encode cs ++ rest := (List.prefix_append _ _).trans h
    have found := (decodes_decode.found _ d _).2 ⟨first, rfl⟩
    cases cs with
    | nil =>
      rw [Utf8.encode_nil, List.nil_append] at found
      rw [found] at unfinished
      cases unfinished
    | cons c cs =>
      rw [Utf8.encode_cons, List.append_assoc, Utf8.decode_encode] at found
      cases found
      rw [Utf8.encode_cons, Utf8.encode_cons, List.append_assoc,
        List.prefix_append_right_inj] at h
      exact List.cons_prefix_cons.2 ⟨rfl, ih h⟩

theorem fed_chunks {chunks : List (List UInt8)} (nonempty : ∀ chunk ∈ chunks, chunk ≠ []) :
    Fed { chunks := chunks.map .bytes } ∧
      ahead { chunks := chunks.map .bytes } = chunks.flatten := by
  refine ⟨⟨?_, rfl⟩, ?_⟩
  · intro c there
    obtain ⟨chunk, given, rfl⟩ := List.mem_map.1 there
    obtain ⟨b, bs, rfl⟩ := List.exists_cons_of_ne_nil (nonempty chunk given)
    exact ⟨b, bs, rfl⟩
  · rw [ahead, List.flatMap_map, List.flatten_eq_flatMap]
    rfl

/-! ## The input of a reader -/

/-- The reply to a read where an input ends or fails. -/
def lastReply : Option ReadError → Except ReadError (Option Char)
  | none => .ok none
  | some e => .error e

theorem drain_of_char {taken : Array Char} (h : r.read = (.ok (some c), s)) :
    r.drain taken = s.drain (taken.push c) := by
  rw [drain]
  split <;> simp_all

theorem drain_of_last {taken : Array Char} {failure : Option ReadError}
    (h : r.read = (lastReply failure, s)) : r.drain taken = (taken, failure) := by
  rw [drain]
  cases failure <;> split <;> simp_all [lastReply]

/-- The next reads bring what is taken up, and the one behind them brings no character. -/
theorem replies_drain (r : Reader) (taken : Array Char) :
    ∃ cs, (r.drain taken).1.toList = taken.toList ++ cs ∧
      r.replies (cs.length + 1) = brought cs ++ [lastReply (r.drain taken).2] := by
  induction r, taken using Reader.drain.induct with
  | case1 r taken c s read _ ih =>
    obtain ⟨cs, all, later⟩ := ih
    rw [drain_of_char read]
    refine ⟨c :: cs, by simp [all], ?_⟩
    rw [replies, read, List.length_cons, later]
    rfl
  | case2 r taken s read =>
    have last : r.read = (lastReply none, s) := read
    rw [drain_of_last last]
    exact ⟨[], by simp, by rw [replies, last]; rfl⟩
  | case3 r taken e s read =>
    have last : r.read = (lastReply (some e), s) := read
    rw [drain_of_last last]
    exact ⟨[], by simp, by rw [replies, last]; rfl⟩

/-- The input of a reader has the characters that reads bring, and ends or fails as the first read
that brings none. -/
theorem replies_toInput (r : Reader) :
    r.replies (r.toInput.rest.length + 1) =
      brought r.toInput.rest ++ [lastReply r.toInput.failure] := by
  obtain ⟨cs, all, later⟩ := r.replies_drain #[]
  have rest : r.toInput.rest = cs := by simpa [toInput] using all
  rw [rest, later]
  rfl

theorem Fed.failure_drain (h : Fed r) (cs : List Char) (ahead : r.ahead = encode cs ++ rest)
    (unfinished : (decode rest).1 = none) (taken : Array Char) :
    (r.drain taken).2 = if rest = [] then none else some invalid := by
  induction cs generalizing r taken with
  | nil =>
    obtain ⟨_, brings⟩ := h.read
    rw [ahead] at brings
    obtain ⟨reply, -⟩ := brings_of_unfinished unfinished brings
    have last : r.read = (lastReply (if rest = [] then none else some invalid), r.read.2) := by
      refine Prod.ext (reply.trans ?_) rfl
      rw [stop, apply_ite lastReply]
      rfl
    rw [drain_of_last last]
  | cons c cs ih =>
    obtain ⟨fed, brings⟩ := h.read
    rw [ahead, Utf8.encode_cons, List.append_assoc] at brings
    obtain ⟨reply, left⟩ := brings_of_char brings
    rw [drain_of_char (Prod.ext reply rfl)]
    exact ih fed left _

/-- Over chunks of bytes the input fails just if no text has these bytes. -/
theorem failure_toInput_chunks {chunks : List (List UInt8)}
    (nonempty : ∀ chunk ∈ chunks, chunk ≠ []) :
    let input := toInput { chunks := chunks.map .bytes }
    (input.failure = none ↔ ∃ cs, encode cs = chunks.flatten) ∧
      ∀ e, input.failure = some e → e = invalid := by
  intro input
  obtain ⟨fed, ahead⟩ := fed_chunks nonempty
  have fails (cs : List Char) {rest : List UInt8} (split : chunks.flatten = encode cs ++ rest)
      (unfinished : (decode rest).1 = none) :
      input.failure = if rest = [] then none else some invalid :=
    fed.failure_drain cs (ahead.trans split) unfinished #[]
  obtain ⟨cs, rest, split, unfinished⟩ := exists_split chunks.flatten
  refine ⟨⟨fun ends => ?_, fun ⟨text, all⟩ => ?_⟩, fun e failing => ?_⟩
  · rw [fails cs split unfinished] at ends
    by_cases whole : rest = []
    · exact ⟨cs, by rw [split, whole, List.append_nil]⟩
    · rw [if_neg whole] at ends
      cases ends
  · have split : chunks.flatten = encode text ++ [] := by rw [all, List.append_nil]
    exact fails text split rfl
  · rw [fails cs split unfinished] at failing
    split at failing <;> cases failing
    rfl

/-- Reads over chunks of bytes bring the characters of the longest prefix of all bytes that is
valid, in order, and then for ever the end, if that is all bytes, or else that the next ones are
invalid. Where the bytes are cut into chunks makes no difference. Decoding itself leaves no choice
about any character. -/
theorem reads_longest_valid (chunks : List (List UInt8))
    (nonempty : ∀ chunk ∈ chunks, chunk ≠ []) :
    (∀ d, Decodes d ↔ d = decode) ∧
    (∃ cs, encode cs <+: chunks.flatten ∧
      (∀ more, encode more <+: chunks.flatten → encode more <+: encode cs) ∧
      let last : Except ReadError (Option Char) :=
        if encode cs = chunks.flatten then .ok none else .error invalid
      ∀ n, replies { chunks := chunks.map .bytes } n =
        (brought cs ++ List.replicate n last).take n) ∧
    ∀ others : List (List UInt8), (∀ chunk ∈ others, chunk ≠ []) →
      others.flatten = chunks.flatten →
      ∀ n, replies { chunks := others.map .bytes } n =
        replies { chunks := chunks.map .bytes } n := by
  obtain ⟨cs, rest, split, unfinished⟩ := exists_split chunks.flatten
  have reads {given : List (List UInt8)} (nonempty : ∀ chunk ∈ given, chunk ≠ [])
      (same : given.flatten = chunks.flatten) (n : Nat) :
      replies { chunks := given.map .bytes } n =
        (brought cs ++ List.replicate n (stop rest)).take n := by
    obtain ⟨fed, ahead⟩ := fed_chunks nonempty
    exact fed.replies cs (by rw [ahead, same, split]) unfinished n
  refine ⟨fun d => ⟨fun h => h.unique decodes_decode, ?_⟩, ⟨cs, ?_, ?_, ?_⟩, ?_⟩
  · rintro rfl
    exact decodes_decode
  · exact ⟨rest, split.symm⟩
  · intro more first
    rw [split] at first
    obtain ⟨behind, rfl⟩ := prefix_of_encode unfinished first
    exact ⟨encode behind, List.flatMap_append.symm⟩
  · have whole : encode cs = chunks.flatten ↔ rest = [] := by
      rw [split]
      exact List.self_eq_append_right
    intro last n
    rw [reads nonempty rfl, stop]
    simp only [last, whole]
  · intro others nonempty' same n
    rw [reads nonempty' same, reads nonempty rfl]

/-- A character that is cut twice, another one behind it, and then a byte that begins none, which
looks cut off at the end of its chunk. -/
theorem reads_longest_valid_across_chunks :
    let chunks : List (List UInt8) := [[0xE2], [0x86], [0x92, 0x78], [0xFF], [0x79]]
    let whole : List (List UInt8) := [chunks.flatten]
    replies { chunks := chunks.map .bytes } 4 =
        [.ok (some '→'), .ok (some 'x'), .error invalid, .error invalid] ∧
      replies { chunks := whole.map .bytes } 4 = replies { chunks := chunks.map .bytes } 4 := by
  intro chunks whole
  refine ⟨by decide +kernel, ?_⟩
  exact (reads_longest_valid chunks (by decide)).2.2 whole (by decide) (by decide) 4

end Reader
end Munch
