import Munch.Proofs.Reader

/-!
# Reads that are interrupted

An access to a byte stream may fail in the midst of a character, with some of its bytes already
taken. The read in progress then fails, once, and the next one goes on where it was: nothing that is
pending is lost, wherever and however often the stream fails.

A stream is told by its characters and by its stops, the failures with the number of bytes in front
of each. A read either takes the first character, if all of its bytes come before the first stop, or
it meets that stop. So the replies weave the stops into the characters.

## Main definitions

* `Chunk.failures`, `Chunk.stops`: the failures of a stream, and where they come.
* `Reader.Between`: a reader with characters and stops ahead.
* `Reader.Weaves`: characters and stops in the order in which reads meet them.
* `Reader.interrupted_reads`: reads over a stream that fails at any places.
-/

namespace Munch

open Utf8 (decode encode decodes_decode)
open String (utf8EncodeChar)

/-- Characters whose bytes begin with those of one begin with that one. -/
theorem Utf8.eq_cons_of_encode {cs : List Char} {c : Char} {rest : List UInt8}
    (h : encode cs = utf8EncodeChar c ++ rest) : ∃ more, cs = c :: more ∧ encode more = rest := by
  have found := congrArg decode h
  rw [decode_encode] at found
  cases cs with
  | nil => cases found
  | cons d more =>
    rw [encode_cons, decode_encode] at found
    cases found
    exact ⟨more, rfl, List.append_cancel_left h⟩

/-- Bytes that are no character yet are fewer than those of the character that they begin. -/
theorem Utf8.length_lt_of_unfinished {front back : List UInt8} {c : Char} {cs : List Char}
    (split : encode (c :: cs) = front ++ back) (unfinished : (decode front).1 = none) :
    front.length < (utf8EncodeChar c).length := by
  by_contra long
  have first : utf8EncodeChar c <+: front ++ back := split ▸ List.prefix_append _ _
  have within := List.prefix_of_prefix_length_le first (List.prefix_append front back) (by omega)
  rw [(decodes_decode.found _ c _).2 ⟨within, rfl⟩] at unfinished
  cases unfinished

namespace Chunk

/-- The failures of a stream, in order. -/
def failures : List Chunk → List ReadError
  | [] => []
  | .bytes _ :: rest => failures rest
  | .failure e :: rest => e :: failures rest

/-- The failures of a stream, each with the number of bytes in front of it, `o` of which came before
the chunks. -/
def stops (o : Nat) : List Chunk → List (Nat × ReadError)
  | [] => []
  | .bytes bs :: rest => stops (o + bs.length) rest
  | .failure e :: rest => (o, e) :: stops o rest

theorem map_stops (o : Nat) (chunks : List Chunk) :
    (stops o chunks).map (·.2) = failures chunks := by
  fun_induction stops o chunks with
  | case1 => rfl
  | case2 o bs rest ih => exact ih
  | case3 o e rest ih => simp [failures, ih]

theorem stops_append (o : Nat) (front back : List Chunk) : stops o (front ++ back) =
    stops o front ++ stops (o + (front.flatMap content).length) back := by
  fun_induction stops o front with
  | case1 => rfl
  | case2 o bs rest ih => simp [stops, ih, content, Nat.add_assoc]
  | case3 o e rest ih => simp [stops, ih, content]

theorem le_of_mem_stops {o : Nat} {chunks : List Chunk} {p : Nat × ReadError}
    (h : p ∈ stops o chunks) : o ≤ p.1 := by
  fun_induction stops o chunks with
  | case1 => cases h
  | case2 o bs rest ih => exact Nat.le_trans (Nat.le_add_right _ _) (ih h)
  | case3 o e rest ih =>
    rcases List.mem_cons.1 h with rfl | later
    · exact Nat.le_refl _
    · exact ih later

end Chunk

namespace Reader

/-- A reader of a stream behind `o` bytes of whole characters, with characters and stops ahead. No
chunk looks like the end of the stream, and the bytes that are pending are no character. -/
structure Between (o : Nat) (cs : List Char) (stops : List (Nat × ReadError)) (r : Reader) :
    Prop where
  chunks : .bytes [] ∉ r.chunks
  unfinished : (decode r.pending).1 = none
  ahead : r.ahead = encode cs
  stops : Chunk.stops (o + r.pending.length + r.current.length) r.chunks = stops

/-- What an access with characters and stops ahead comes to: the first of them, or the end, or
bytes become pending. -/
inductive Meets (o : Nat) : List Char → List (Nat × ReadError) →
    Option (Except ReadError (Option Char)) × Reader → Prop where
  | char {c : Char} {cs : List Char} {stops : List (Nat × ReadError)} {s : Reader} :
    (∀ p ∈ stops, o + (utf8EncodeChar c).length ≤ p.1) →
    Between (o + (utf8EncodeChar c).length) cs stops s →
    Meets o (c :: cs) stops (some (.ok (some c)), s)
  | failure {p : Nat} {e : ReadError} {cs : List Char} {stops : List (Nat × ReadError)}
    {s : Reader} : (∀ c ∈ cs.head?, p < o + (utf8EncodeChar c).length) → Between o cs stops s →
    Meets o cs ((p, e) :: stops) (some (.error e), s)
  | ended {s : Reader} : Between o [] [] s → Meets o [] [] (some (.ok none), s)
  | moved {cs : List Char} {stops : List (Nat × ReadError)} {s : Reader} : Between o cs stops s →
    Meets o cs stops (none, s)

variable {o n : Nat} {cs : List Char} {stops : List (Nat × ReadError)} {r s : Reader}

/-- A character of which all bytes come first is before every stop. -/
theorem Between.before (h : Between o cs stops r) {n : Nat}
    (within : n ≤ r.pending.length + r.current.length) : ∀ p ∈ stops, o + n ≤ p.1 := by
  intro p there
  rw [← h.stops] at there
  have := Chunk.le_of_mem_stops there
  omega

/-- Bytes that are refused are not the first ones of a text. -/
theorem Between.not_refused {bs rest : List UInt8} (split : encode cs = bs ++ rest)
    (missed : decode bs = (none, n)) : ¬n < bs.length := by
  intro refused
  have never := Utf8.decode_append_of_refused missed refused rest
  rw [← split] at never
  cases cs with
  | nil =>
    obtain ⟨rfl, -⟩ := List.append_eq_nil_iff.1 split.symm
    cases refused
  | cons c cs =>
    rw [Utf8.encode_cons, Utf8.decode_encode] at never
    cases never

theorem Between.decodeFresh (h : Between o cs stops r) (idle : r.pending = []) :
    Meets o cs stops (r.decodeFresh r.current) := by
  have split : encode cs = r.current ++ r.chunks.flatMap Chunk.content := by
    rw [← h.ahead, Reader.ahead, idle, List.nil_append]
  have here := h.stops
  rw [idle, List.length_nil, Nat.add_zero] at here
  rw [Reader.decodeFresh]
  rcases found : decode r.current with ⟨_ | c, n⟩
  · dsimp only
    by_cases cut : isCut n r.current = true
    · rw [if_pos cut]
      refine .moved ⟨h.chunks, congrArg Prod.fst found, ?_, here⟩
      rw [split, Reader.ahead, List.append_nil]
    · exact absurd (Utf8.refused_of_not_cut found cut) (Between.not_refused split found)
  · obtain ⟨⟨later, current⟩, rfl⟩ := (decodes_decode.found _ c n).1 found
    rw [← current, List.append_assoc] at split
    obtain ⟨more, rfl, rest⟩ := Utf8.eq_cons_of_encode split
    rw [← current, List.length_append] at here
    refine .char (h.before ?_) ⟨h.chunks, h.unfinished, ?_, ?_⟩
    · rw [← current, List.length_append]
      omega
    · rw [Reader.ahead, idle, ← current, List.drop_left, rest]
      rfl
    · rw [idle, ← current, List.drop_left, List.length_nil, Nat.add_zero, Nat.add_assoc]
      exact here

theorem Between.decodePending (h : Between o cs stops r) {b : UInt8} {rest : List UInt8}
    (current : r.current = b :: rest) : Meets o cs stops (r.decodePending b rest) := by
  have split : encode cs = (r.pending ++ [b]) ++ (rest ++ r.chunks.flatMap Chunk.content) := by
    rw [← h.ahead, Reader.ahead, current]
    simp
  have here := h.stops
  rw [current, List.length_cons] at here
  rw [Reader.decodePending]
  rcases found : decode (r.pending ++ [b]) with ⟨_ | c, n⟩
  · dsimp only
    by_cases cut : isCut n (r.pending ++ [b]) = true
    · rw [if_pos cut]
      refine .moved ⟨h.chunks, congrArg Prod.fst found, ?_, ?_⟩
      · rw [split, Reader.ahead, List.append_assoc (r.pending ++ [b])]
      · have moved : o + (r.pending ++ [b]).length + rest.length =
            o + r.pending.length + (rest.length + 1) := by
          rw [List.length_append, List.length_singleton]
          omega
        exact moved ▸ here
    · exact absurd (Utf8.refused_of_not_cut found cut) (Between.not_refused split found)
  · have all := Utf8.eq_encode_of_completed h.unfinished found
    have size := congrArg List.length all
    rw [List.length_append, List.length_singleton] at size
    rw [all] at split
    obtain ⟨more, rfl, later⟩ := Utf8.eq_cons_of_encode split
    refine .char (h.before ?_) ⟨h.chunks, rfl, ?_, ?_⟩
    · rw [current, List.length_cons]
      omega
    · exact later.symm
    · have taken : o + (utf8EncodeChar c).length + 0 + rest.length =
          o + r.pending.length + (rest.length + 1) := by
        rw [← size]
        omega
      exact taken ▸ here

/-- The bytes at hand are some, or the first stop is met, or nothing follows those that are
pending. -/
inductive Filled (o : Nat) (cs : List Char) :
    List (Nat × ReadError) → Except ReadError (List UInt8) × Reader → Prop where
  | bytes {stops : List (Nat × ReadError)} {b : UInt8} {bs : List UInt8} {s : Reader} :
    s.current = b :: bs → Between o cs stops s → Filled o cs stops (.ok (b :: bs), s)
  | failure {e : ReadError} {stops : List (Nat × ReadError)} {s : Reader} : s.current = [] →
    Between o cs stops s → Filled o cs ((o + s.pending.length, e) :: stops) (.error e, s)
  | ended {s : Reader} : encode cs = s.pending → Between o cs [] s → Filled o cs [] (.ok [], s)

theorem Between.fill (h : Between o cs stops r) : Filled o cs stops r.fill := by
  obtain ⟨chunks, current, pending⟩ := r
  obtain ⟨nonempty, unfinished, ahead, here⟩ := h
  cases current with
  | cons b bs => exact .bytes rfl ⟨nonempty, unfinished, ahead, here⟩
  | nil =>
    cases chunks with
    | nil =>
      obtain rfl : [] = stops := here
      refine .ended ?_ ⟨nonempty, unfinished, ahead, rfl⟩
      simpa [Reader.ahead] using ahead.symm
    | cons c chunks =>
      obtain ⟨some, later⟩ := not_or.1 (mt List.mem_cons.2 nonempty)
      cases c with
      | failure e =>
        obtain rfl : _ :: _ = stops := here
        exact .failure (s := { chunks, pending }) rfl ⟨later, unfinished, ahead, rfl⟩
      | bytes bs =>
        cases bs with
        | nil => exact absurd rfl some
        | cons b bs =>
          refine .bytes rfl ⟨later, unfinished, ?_, here⟩
          rw [← ahead]
          simp [Reader.ahead, Chunk.content]

/-- Bytes that are pending are not all of a character that comes next. -/
theorem Between.pending_lt {c : Char} (h : Between o (c :: cs) stops r) :
    r.pending.length < (utf8EncodeChar c).length := by
  have split := h.ahead
  rw [Reader.ahead, List.append_assoc] at split
  exact Utf8.length_lt_of_unfinished split.symm h.unfinished

theorem Between.access (h : Between o cs stops r) : Meets o cs stops r.access := by
  have filled := h.fill
  rw [Reader.access]
  generalize r.fill = result at filled ⊢
  cases filled with
  | @bytes _ b bs s current between =>
    dsimp only
    cases idle : s.pending.isEmpty with
    | true =>
      rw [if_pos rfl, ← current]
      exact between.decodeFresh (List.isEmpty_iff.1 idle)
    | false =>
      rw [if_neg Bool.false_ne_true]
      exact between.decodePending current
  | failure current between =>
    refine .failure (fun c first => ?_) between
    obtain ⟨more, rfl⟩ := List.head?_eq_some_iff.1 first
    have := between.pending_lt
    omega
  | ended all between =>
    have unfinished := between.unfinished
    rw [← all] at unfinished
    cases cs with
    | nil =>
      simp only [← all, Utf8.encode_nil, List.isEmpty_nil, if_true]
      exact .ended between
    | cons c cs =>
      rw [Utf8.encode_cons, Utf8.decode_encode] at unfinished
      cases unfinished

/-- A read takes the first character, or meets the first stop, or the end. -/
theorem Between.read (h : Between o cs stops r) : Meets o cs stops (some r.read.1, r.read.2) := by
  induction r using Reader.read.induct with
  | case1 r reply s accessed =>
    have access := h.access
    rw [accessed] at access
    rwa [read_of_reply accessed]
  | case2 r s accessed _ ih =>
    have access := h.access
    rw [accessed] at access
    rw [read_of_unfinished accessed]
    cases access with
    | moved between => exact ih between

/-! ## Reads in a row -/

/-- The replies to reads in a row, up to the end of the stream: characters and stops in the order in
which they are met. -/
inductive Weaves : Nat → List Char → List (Nat × ReadError) →
    List (Except ReadError (Option Char)) → Prop where
  | done (o : Nat) : Weaves o [] [] []
  | char {o : Nat} {c : Char} {cs : List Char} {stops : List (Nat × ReadError)}
    {replies : List (Except ReadError (Option Char))} :
    (∀ p ∈ stops, o + (utf8EncodeChar c).length ≤ p.1) →
    Weaves (o + (utf8EncodeChar c).length) cs stops replies →
    Weaves o (c :: cs) stops (.ok (some c) :: replies)
  | failure {o p : Nat} {e : ReadError} {cs : List Char} {stops : List (Nat × ReadError)}
    {replies : List (Except ReadError (Option Char))} :
    (∀ c ∈ cs.head?, p < o + (utf8EncodeChar c).length) → Weaves o cs stops replies →
    Weaves o cs ((p, e) :: stops) (.error e :: replies)

/-- The errors among replies. -/
def errors (replies : List (Except ReadError (Option Char))) : List ReadError :=
  replies.filterMap fun
    | .error e => some e
    | .ok _ => none

variable {ws : List (Except ReadError (Option Char))}

/-- The characters are all there, in order. -/
theorem Weaves.filter_isOk (h : Weaves o cs stops ws) : ws.filter Except.isOk = brought cs := by
  induction h with
  | done => rfl
  | char _ _ ih => exact congrArg (_ :: ·) ih
  | failure _ _ ih => exact ih

/-- The failures are all there, in order. -/
theorem Weaves.errors_eq (h : Weaves o cs stops ws) : errors ws = stops.map (·.2) := by
  induction h with
  | done => rfl
  | char _ _ ih => exact ih
  | failure _ _ ih => exact congrArg (_ :: ·) ih

theorem Weaves.length_eq (h : Weaves o cs stops ws) : ws.length = cs.length + stops.length := by
  induction h with
  | done => rfl
  | char _ _ ih =>
    rw [List.length_cons, List.length_cons, ih]
    omega
  | failure _ _ ih =>
    rw [List.length_cons, List.length_cons, ih]
    omega

/-- A stop comes behind the stops before it and the `k` characters whose bytes come before it. -/
theorem Weaves.getElem?_stop (h : Weaves o cs stops ws) {before after : List (Nat × ReadError)}
    {p : Nat} {e : ReadError} (split : stops = before ++ (p, e) :: after) {k : Nat}
    (whole : o + (encode (cs.take k)).length ≤ p) (le : k ≤ cs.length)
    (cut : ∀ c ∈ cs[k]?, p < o + (encode (cs.take k)).length + (utf8EncodeChar c).length) :
    ws[before.length + k]? = some (.error e) := by
  induction h generalizing before k with
  | done => cases before <;> cases split
  | @char o c cs stops ws first _ ih =>
    cases k with
    | zero =>
      have late := first (p, e) (by simp [split])
      have early := cut c rfl
      simp only [List.take_zero, Utf8.encode_nil, List.length_nil] at late early
      omega
    | succ k =>
      rw [List.take_succ_cons, Utf8.encode_cons, List.length_append, ← Nat.add_assoc] at whole cut
      exact ih split whole (Nat.le_of_succ_le_succ le) cut
  | @failure o q e' cs stops ws early _ ih =>
    cases before with
    | nil =>
      cases split
      cases k with
      | zero => rfl
      | succ k =>
        -- All bytes of the first character would come before the stop.
        obtain ⟨c, cs, rfl⟩ := List.exists_cons_of_length_pos (Nat.lt_of_lt_of_le k.succ_pos le)
        have := early c rfl
        rw [List.take_succ_cons, Utf8.encode_cons, List.length_append] at whole
        omega
    | cons q before =>
      cases split
      rw [List.length_cons, Nat.add_right_comm]
      exact ih rfl whole le cut

/-- The end of the stream is no error. -/
theorem errors_take (ws : List (Except ReadError (Option Char))) (n : Nat) :
    errors ((ws ++ List.replicate n (Except.ok none)).take n) = errors (ws.take n) := by
  have ended (k : Nat) : errors (List.replicate k (Except.ok none)) = [] := by
    induction k with
    | zero => rfl
    | succ k ih => exact ih
  rw [List.take_append, List.take_replicate, errors, List.filterMap_append, ← errors, ← errors,
    ended, List.append_nil]

theorem Between.replies_ended (h : Between o [] [] r) (n : Nat) :
    r.replies n = List.replicate n (.ok none) := by
  induction n generalizing r with
  | zero => rfl
  | succ n ih =>
    have read := h.read
    rw [Reader.replies, List.replicate_succ]
    generalize r.read = result at read ⊢
    obtain ⟨reply, s⟩ := result
    cases read with
    | ended between => rw [ih between]

/-- Reads weave what is ahead, and then find the end for ever. -/
theorem Between.replies (h : Between o cs stops r) : ∃ ws, Weaves o cs stops ws ∧
    ∀ n, r.replies n = (ws ++ List.replicate n (Except.ok none)).take n := by
  -- Every read takes a character or a stop, until none is left.
  induction size : cs.length + stops.length using Nat.strongRecOn generalizing o cs stops r with
  | _ size ih =>
    have read := h.read
    rcases result : r.read with ⟨reply, s⟩
    rw [result] at read
    have more : ∀ {ws : List (Except ReadError (Option Char))},
        (∀ n, s.replies n = (ws ++ List.replicate n (Except.ok none)).take n) →
        ∀ n, r.replies n = (reply :: ws ++ List.replicate n (Except.ok none)).take n := by
      intro ws later n
      cases n with
      | zero => rfl
      | succ n =>
        rw [Reader.replies, result, later, List.cons_append, List.take_succ_cons,
          take_append_replicate ws _ (Nat.le_succ n)]
    cases read with
    | char first between =>
      obtain ⟨ws, weaves, later⟩ := ih _ (by simp [← size]) between rfl
      exact ⟨_, .char first weaves, more later⟩
    | failure early between =>
      obtain ⟨ws, weaves, later⟩ := ih _ (by simp [← size]) between rfl
      exact ⟨_, .failure early weaves, more later⟩
    | ended =>
      refine ⟨[], .done o, fun n => ?_⟩
      rw [h.replies_ended n, List.nil_append, List.take_of_length_le (by simp)]

/-- The reader of a stream whose bytes are those of a text. -/
theorem between_stream {stream : List Chunk} (some : .bytes [] ∉ stream)
    (bytes : stream.flatMap Chunk.content = encode cs) :
    Between 0 cs (Chunk.stops 0 stream) { chunks := stream } where
  chunks := some
  unfinished := rfl
  ahead := bytes
  stops := rfl

/-- In front of a place in a text there is a longest beginning of it. -/
theorem exists_longest {front back : List UInt8} (split : encode cs = front ++ back) :
    ∃ k ≤ cs.length, encode (cs.take k) <+: front ∧
      (∀ more, encode more <+: front → more.length ≤ k) ∧
      ∀ c ∈ cs[k]?, front.length < (encode (cs.take k)).length + (utf8EncodeChar c).length := by
  obtain ⟨whole, rest, rfl, unfinished⟩ := exists_split front
  have nothing : (decode []).1 = none := rfl
  have first : whole <+: cs := by
    apply prefix_of_encode nothing
    rw [List.append_nil, split, List.append_assoc]
    exact List.prefix_append _ _
  obtain ⟨behind, rfl⟩ := first
  refine ⟨whole.length, by simp, ?_, ?_, ?_⟩
  · rw [List.take_left]
    exact List.prefix_append _ _
  · intro more within
    exact (prefix_of_encode unfinished within).length_le
  · intro c next
    have next : behind.head? = some c := by
      simpa [List.getElem?_append_right, List.head?_eq_getElem?] using next
    obtain ⟨later, rfl⟩ := List.head?_eq_some_iff.1 next
    have both : encode whole ++ encode (c :: later) = encode whole ++ (rest ++ back) := by
      rw [← List.append_assoc, ← split]
      exact List.flatMap_append.symm
    have := Utf8.length_lt_of_unfinished (List.append_cancel_left both) unfinished
    rw [List.take_left, List.length_append]
    omega

/-- Of reads in a row, those that succeed bring what is there without the stops. -/
theorem Weaves.filter_take (h : Weaves o cs stops ws) (n : Nat) :
    let oks := ((ws ++ List.replicate n (Except.ok none)).take n).filter Except.isOk
    oks = (brought cs ++ List.replicate oks.length (Except.ok none)).take oks.length := by
  intro oks
  have first : oks <+: brought cs ++ List.replicate n (Except.ok none) := by
    have taken := List.take_prefix n (ws ++ List.replicate n (Except.ok none))
    have taken := taken.filter Except.isOk
    rwa [List.filter_append, h.filter_isOk, List.filter_replicate_of_pos rfl] at taken
  have few : oks.length ≤ n :=
    Nat.le_trans (List.length_filter_le _ _) (List.length_take_le _ _)
  exact (List.prefix_iff_eq_take.1 first).trans (take_append_replicate _ _ few)

/-- A failure is the reply to the read behind the characters whose bytes come before it and the
failures before it. -/
theorem Weaves.getElem?_failure {stream before after : List Chunk} {e : ReadError}
    (h : Weaves 0 cs (Chunk.stops 0 stream) ws) (bytes : stream.flatMap Chunk.content = encode cs)
    (split : stream = before ++ .failure e :: after) :
    ∃ whole, encode whole <+: before.flatMap Chunk.content ∧
      (∀ more, encode more <+: before.flatMap Chunk.content → more.length ≤ whole.length) ∧
      ws[(Chunk.failures before).length + whole.length]? = some (.error e) := by
  rw [split, List.flatMap_append] at bytes
  obtain ⟨k, le, whole, longest, cut⟩ := exists_longest bytes.symm
  have stops := Chunk.stops_append 0 before (.failure e :: after)
  rw [← split, Nat.zero_add] at stops
  have position := h.getElem?_stop stops (by rw [Nat.zero_add]; exact whole.length_le) le
    (by simpa using cut)
  have count : (Chunk.stops 0 before).length = (Chunk.failures before).length := by
    rw [← Chunk.map_stops 0, List.length_map]
  have size : (cs.take k).length = k := List.length_take_of_le le
  rw [count] at position
  refine ⟨cs.take k, whole, ?_, ?_⟩
  · rwa [size]
  · rwa [size]

/-- Reads over a stream that fails at any places, also in the midst of characters. What they bring
apart from the errors is what they bring without the failures, however the bytes are cut into
chunks. Every failure is the reply to one read, in order: the one behind the characters whose bytes
come before it and the failures before it, which is the read that meets it. -/
theorem interrupted_reads {cs : List Char} {chunks : List (List UInt8)}
    (nonempty : ∀ chunk ∈ chunks, chunk ≠ []) (valid : chunks.flatten = encode cs)
    {stream : List Chunk} (some : .bytes [] ∉ stream)
    (same : stream.flatMap Chunk.content = chunks.flatten) (n : Nat) :
    let rs := replies { chunks := stream } n
    let oks := rs.filter Except.isOk
    oks = replies { chunks := chunks.map .bytes } oks.length ∧
      errors rs <+: Chunk.failures stream ∧
      (cs.length + (Chunk.failures stream).length ≤ n → errors rs = Chunk.failures stream) ∧
      ∀ before e after, stream = before ++ .failure e :: after →
        ∃ whole, encode whole <+: before.flatMap Chunk.content ∧
          (∀ more, encode more <+: before.flatMap Chunk.content → more.length ≤ whole.length) ∧
          let place := (Chunk.failures before).length + whole.length
          place < n → rs[place]? = .some (.error e) := by
  obtain ⟨ws, weaves, replies_eq⟩ := (between_stream some (same.trans valid)).replies
  have failures : errors ws = Chunk.failures stream := by rw [weaves.errors_eq, Chunk.map_stops]
  have length : ws.length = cs.length + (Chunk.failures stream).length := by
    rw [weaves.length_eq, ← Chunk.map_stops 0, List.length_map]
  intro rs oks
  have rs_eq : rs = (ws ++ List.replicate n (Except.ok none)).take n := replies_eq n
  refine ⟨?_, ?_, fun enough => ?_, fun before e after split => ?_⟩
  · obtain ⟨fed, bytes⟩ := fed_chunks nonempty
    rw [valid, ← List.append_nil (encode cs)] at bytes
    rw [fed.replies cs bytes rfl]
    have brings := weaves.filter_take n
    rwa [← rs_eq] at brings
  · rw [rs_eq, errors_take, ← failures]
    exact (List.take_prefix n ws).filterMap _
  · rw [rs_eq, errors_take, List.take_of_length_le (length ▸ enough), failures]
  · obtain ⟨whole, first, longest, position⟩ := weaves.getElem?_failure (same.trans valid) split
    refine ⟨whole, first, longest, ?_⟩
    intro place early
    have inside := (List.getElem?_eq_some_iff.1 position).1
    rw [rs_eq, List.getElem?_take_of_lt early, List.getElem?_append_left inside, position]

/-- The stream fails behind the first and twice behind the second byte of a character, and once more
at its end. -/
theorem interrupted_reads_in_character :
    let late : ReadError := ⟨"TimedOut", "no data"⟩
    let busy : ReadError := ⟨"WouldBlock", "not ready"⟩
    let chunks : List (List UInt8) := [[0xE2, 0x86], [0x92, 0x78]]
    let stream : List Chunk := [.bytes [0xE2], .failure late, .bytes [0x86], .failure busy,
      .failure late, .bytes [0x92, 0x78], .failure busy]
    let rs := replies { chunks := stream } 8
    (∀ chunk ∈ chunks, chunk ≠ []) ∧ chunks.flatten = encode ['→', 'x'] ∧ .bytes [] ∉ stream ∧
      stream.flatMap Chunk.content = chunks.flatten ∧
      rs = [.error late, .error busy, .error late, .ok (some '→'), .ok (some 'x'), .error busy,
        .ok none, .ok none] ∧
      rs.filter Except.isOk = replies { chunks := chunks.map .bytes } 4 ∧
      errors rs = [late, busy, late, busy] ∧ ∃ whole, encode whole <+: [0xE2, 0x86] ∧
        (2 + whole.length < 8 → rs[2 + whole.length]? = some (.error late)) := by
  intro late busy chunks stream rs
  have nonempty : ∀ chunk ∈ chunks, chunk ≠ [] := by decide
  have valid : chunks.flatten = encode ['→', 'x'] := by decide
  have given : .bytes [] ∉ stream := by simp [stream]
  have same : stream.flatMap Chunk.content = chunks.flatten := rfl
  have all : rs = [.error late, .error busy, .error late, .ok (some '→'), .ok (some 'x'),
      .error busy, .ok none, .ok none] := by decide +kernel
  obtain ⟨oks, -, complete, places⟩ := interrupted_reads nonempty valid given same 8
  obtain ⟨whole, first, -, place⟩ := places
    [.bytes [0xE2], .failure late, .bytes [0x86], .failure busy] late _ rfl
  have four : (rs.filter Except.isOk).length = 4 := by rw [all]; rfl
  refine ⟨nonempty, valid, given, same, all, ?_, complete (by decide), whole, first, place⟩
  exact four ▸ oks

end Reader
end Munch
