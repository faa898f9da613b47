import Munch.Grammar
import Munch.Source

/-!
# The lexer

A lexer pulls frames from a source, finds the rule of each in a grammar, and turns them into
tokens. Frames that were pulled wait on a bounded stack: the bottom one is the current frame,
which `lex` makes into a token, and `peek` and `pop` look ahead from it and give frames back.
The end of the stream, a request to stop and an error each end the pulling for good.

To find rules inside inner passes the lexer keeps the grammars of the open passes, outermost
first. A match frame has to lie at a depth that is open; it closes the grammars below its
depth and opens its inner grammar.

## Main definitions

* `Lexer.peek`, `Lexer.pop`, `Lexer.stop`: lookahead and cancellation.
* `Lexer.turn`: one frame towards the next token.
* `Lexer.lex`: the next token, over a source of finitely many frames.
* `Lexer.drain`: all tokens to come.
-/

namespace Munch

/-- A token kind with the position of its text. -/
structure Token (K : Type) where
  kind : K
  pos : Position
deriving DecidableEq

/-- A frame on the stack with what becomes of its text; `none` for end frames. -/
structure Entry (K : Type) where
  frame : Frame
  action : Option (Action K)

/-- Whether frames are still pulled. -/
inductive Status where
  | running
  /-- The sentinel was pulled. -/
  | drained
  | stopped
  | failed
deriving DecidableEq

/-- A lexer under way. -/
structure Lexer (σ K : Type) where
  source : σ
  /-- The grammars of the open passes, the outermost first. -/
  scopes : List (Grammar K)
  /-- The frames pulled and not yet left behind, the current one first. -/
  stack : List (Entry K) := []
  /-- How many frames the stack may hold. -/
  capacity : Nat
  /-- The current frame was made into a token already. -/
  consumed : Bool := false
  status : Status := .running

namespace Lexer

variable {σ K : Type}

/-- The number of frames that the stack holds unless another number is chosen. -/
def defaultCapacity : Nat := 16

/-- A lexer at the beginning of a source. -/
def start (grammar : Grammar K) (source : σ) (capacity : Nat) : Lexer σ K :=
  { source, scopes := [grammar], capacity }

/-- The number of frames on the stack. -/
def depth (l : Lexer σ K) : Nat := l.stack.length

/-- The deepest frame looked ahead to. -/
def top? (l : Lexer σ K) : Option Frame := l.stack.getLast?.map (·.frame)

/-- The text of the deepest frame, empty if there is none. -/
def text (l : Lexer σ K) : String := (l.top?.map (·.text)).getD ""

/-- The position of the deepest frame, the first of the text if there is none. -/
def pos (l : Lexer σ K) : Position := (l.top?.map (·.pos)).getD {}

/-- Forget the frames on the stack. -/
def discard (l : Lexer σ K) : Lexer σ K := { l with stack := [], consumed := false }

/-- Drop the deepest frame. -/
def pop (l : Lexer σ K) : Option Frame × Lexer σ K :=
  (l.top?, { l with
    stack := l.stack.dropLast, consumed := l.consumed && l.stack.length != 1 })

/-- Leave the current frame behind if it was made into a token. -/
def shift (l : Lexer σ K) : Lexer σ K :=
  if l.consumed then { l with stack := l.stack.tail, consumed := false } else l

@[simp] theorem consumed_shift (l : Lexer σ K) : l.shift.consumed = false := by
  rw [shift]
  split <;> simp_all

@[simp] theorem status_shift (l : Lexer σ K) : l.shift.status = l.status := by
  rw [shift]
  split <;> rfl

@[simp] theorem source_shift (l : Lexer σ K) : l.shift.source = l.source := by
  rw [shift]
  split <;> rfl

@[simp] theorem scopes_shift (l : Lexer σ K) : l.shift.scopes = l.scopes := by
  rw [shift]
  split <;> rfl

@[simp] theorem capacity_shift (l : Lexer σ K) : l.shift.capacity = l.capacity := by
  rw [shift]
  split <;> rfl

theorem shift_of_fresh {l : Lexer σ K} (fresh : l.consumed = false) : l.shift = l := by
  simp [shift, fresh]

theorem stack_shift (l : Lexer σ K) :
    l.shift.stack = if l.consumed then l.stack.tail else l.stack := by
  rw [shift]
  split <;> rfl

theorem stack_shift_suffix (l : Lexer σ K) : l.shift.stack <:+ l.stack := by
  rw [stack_shift]
  split
  · exact List.tail_suffix _
  · exact List.suffix_rfl

/-- The stack that a push leaves to `lex`. -/
theorem stack_shift_push {l m : Lexer σ K} {e : Entry K}
    (held : l.consumed = true → l.stack ≠ []) (same : m.consumed = l.consumed)
    (pushed : m.stack = l.stack ++ [e]) : m.shift.stack = l.shift.stack ++ [e] := by
  rw [stack_shift, stack_shift, same, pushed]
  split
  · next consumed => rw [List.tail_append_of_ne_nil (held consumed)]
  · rfl

/-- What becomes of a frame under the open grammars, and the grammars open after it; `none` if
no rule belongs to the frame. -/
def resolve? (scopes : List (Grammar K)) (f : Frame) :
    Option (Option (Action K) × List (Grammar K)) :=
  match f.automaton with
  | none => some (none, scopes.take (max f.depth 1))
  | some i => do
    let g ← scopes[f.depth]?
    let (rule, inner) ← g.get? i
    return (some rule.action, scopes.take (f.depth + 1) ++ inner.toList)

/-- No rule is asked for an end frame. -/
theorem resolve?_of_end {f : Frame} (h : f.isEnd = true) (scopes : List (Grammar K)) :
    resolve? scopes f = some (none, scopes.take (max f.depth 1)) := by
  rw [Frame.isEnd, Option.isNone_iff_eq_none] at h
  rw [resolve?, h]

section FrameSource
variable [FrameSource σ]

/-- End the stream, and forget the frames on the stack. -/
def stop (l : Lexer σ K) : Lexer σ K :=
  if l.status = .running then
    { l with status := .stopped, source := FrameSource.stop l.source }.discard
  else l.discard

/-- End the stream because of an error, and forget the frames on the stack. -/
def fail (l : Lexer σ K) : Lexer σ K :=
  { l with status := .failed, source := FrameSource.stop l.source }.discard

/-- Pull a frame and find what becomes of it; `none` if no frame follows. -/
def pull (l : Lexer σ K) : Except LexError (Option (Entry K)) × Lexer σ K :=
  if l.status = .running then
    match FrameSource.pull l.source with
    | (.error e, source) => (.error e, { l with source }.fail)
    | (.ok none, source) => (.ok none, { l with source, status := .stopped })
    | (.ok (some f), source) =>
      let l := { l with source, status := if f.isSentinel then .drained else .running }
      match resolve? l.scopes f with
      | some (action, scopes) => (.ok (some ⟨f, action⟩), { l with scopes })
      | none => (.error (.unknownRule (f.automaton.getD 0) f.depth f.pos), l.fail)
  else (.ok none, l)

/-- Pull a frame onto the stack; `false` if no frame follows. -/
def extend (l : Lexer σ K) : Except LexError Bool × Lexer σ K :=
  match l.pull with
  | (.error e, l) => (.error e, l)
  | (.ok none, l) => (.ok false, l)
  | (.ok (some entry), l) =>
    if l.stack.length < l.capacity then (.ok true, { l with stack := l.stack ++ [entry] })
    else (.error (.lookaheadOverflow l.capacity), l.fail)

/-- Pull a number of frames onto the stack, or as many as there are. -/
def extendBy (l : Lexer σ K) : Nat → Except LexError Bool × Lexer σ K
  | 0 => (.ok true, l)
  | n + 1 =>
    match l.extend with
    | (.ok true, l) => l.extendBy n
    | (answer, l) => (answer, l)

/-- The frame at a level above the current one, pulling as many frames as that takes; `none`
if there are not enough. A level that the stack has no room for is refused. -/
def peek (l : Lexer σ K) (level : Nat) : Except LexError (Option Frame) × Lexer σ K :=
  if l.capacity ≤ level then (.error (.lookaheadOverflow l.capacity), l)
  else
    match l.extendBy (level + 1 - l.stack.length) with
    | (.error e, l) => (.error e, l)
    | (.ok _, l) => (.ok (l.stack[level]?.map (·.frame)), l)

/-- What the current frame gives: a token, an error, the end of the stream (`some none`), or
nothing, so that the next frame decides. -/
def classify (l : Lexer σ K) (entry : Entry K) :
    Option (Option (Except LexError (Token K))) × Lexer σ K :=
  let l := { l with consumed := true }
  match entry.action with
  | none => (if entry.frame.isSentinel then some none else none, l)
  | some .skip => (none, l)
  | some (.pass kind) => (some (some (.ok ⟨kind entry.frame.text, entry.frame.pos⟩)), l)
  | some (.lookup table) =>
    match table.get? entry.frame.text with
    | some kind => (some (some (.ok ⟨kind, entry.frame.pos⟩)), l)
    | none =>
      (some (some (.error (.unknownLexeme table.name entry.frame.text entry.frame.pos))), l.fail)

/-- One frame towards the next token: the first frame on the stack that is not yet consumed, or
a frame pulled for the purpose. -/
def turn (l : Lexer σ K) : Option (Option (Except LexError (Token K))) × Lexer σ K :=
  match l.shift.stack with
  | entry :: _ => l.shift.classify entry
  | [] =>
    match l.shift.extend with
    | (.error e, l) => (some (some (.error e)), l)
    | (.ok false, l) => (some none, l)
    | (.ok true, l) =>
      match l.stack with
      | entry :: _ => l.classify entry
      | [] => (some none, l)

end FrameSource

section FiniteSource
variable [FrameSource σ] [FiniteSource σ]

/-- A bound on the frames that can still be made into tokens. -/
def supply (l : Lexer σ K) : Nat :=
  FiniteSource.supply l.source + (l.stack.length - if l.consumed then 1 else 0)

variable {l l' : Lexer σ K}

theorem supply_pull_lt {entry : Entry K} (h : l.pull = (.ok (some entry), l')) :
    FiniteSource.supply l'.source < FiniteSource.supply l.source ∧
      l'.stack = l.stack ∧ l'.consumed = l.consumed := by
  rw [pull] at h
  split at h
  · split at h
    · cases h
    · cases h
    · next pulled =>
      simp only at h
      split at h <;> cases h
      exact ⟨FiniteSource.supply_pull_lt pulled, rfl, rfl⟩
  · cases h

theorem supply_extend_lt (h : l.extend = (.ok true, l')) :
    FiniteSource.supply l'.source < FiniteSource.supply l.source ∧
      (∃ entry, l'.stack = l.stack ++ [entry]) ∧ l'.consumed = l.consumed := by
  rw [extend] at h
  split at h
  · cases h
  · cases h
  · next entry _ pulled =>
    obtain ⟨lt, stack, consumed⟩ := supply_pull_lt pulled
    split at h <;> cases h
    exact ⟨lt, ⟨entry, by rw [stack]⟩, consumed⟩

theorem supply_shift (l : Lexer σ K) : l.shift.supply = l.supply := by
  rw [shift]
  split <;> simp_all [supply]

/-- The frame was skipped or made into a token. -/
def Progress (result : Option (Option (Except LexError (Token K)))) : Prop :=
  ∀ r ∈ result, ∃ t, r = some (.ok t)

theorem supply_classify_lt {entry : Entry K} {rest : List (Entry K)}
    {result : Option (Option (Except LexError (Token K)))} (fresh : l.consumed = false)
    (ahead : l.stack = entry :: rest) (h : l.classify entry = (result, l'))
    (progress : Progress result) : l'.supply < l.supply := by
  have lt : supply { l with consumed := true } < l.supply := by simp [supply, fresh, ahead]
  rw [classify] at h
  split at h
  · cases h; exact lt
  · cases h; exact lt
  · cases h; exact lt
  · split at h
    · cases h; exact lt
    · cases h
      obtain ⟨t, ht⟩ := progress _ rfl
      cases ht

/-- Every turn that goes on or gives a token uses up some of the supply. -/
theorem supply_turn_lt {result : Option (Option (Except LexError (Token K)))}
    (h : l.turn = (result, l')) (progress : Progress result) : l'.supply < l.supply := by
  rw [← supply_shift l]
  rw [turn] at h
  split at h
  · next ahead => exact supply_classify_lt (consumed_shift l) ahead h progress
  · next empty =>
    split at h
    · cases h
      obtain ⟨t, ht⟩ := progress _ rfl
      cases ht
    · cases h
      obtain ⟨t, ht⟩ := progress _ rfl
      cases ht
    · next m extended =>
      obtain ⟨lt, ⟨entry, stack⟩, consumed⟩ := supply_extend_lt extended
      rw [empty, List.nil_append] at stack
      rw [consumed_shift] at consumed
      simp only [stack] at h
      have := supply_classify_lt consumed stack h progress
      have : m.supply ≤ l.shift.supply := by
        simp only [supply, stack, consumed, empty, List.length_cons, List.length_nil]
        simp only [Bool.false_eq_true, ↓reduceIte]
        omega
      omega

/-- The next token, or an error; `none` if the stream has ended. -/
def lex (l : Lexer σ K) : Option (Except LexError (Token K)) × Lexer σ K :=
  match h : l.turn with
  | (some result, m) => (result, m)
  | (none, m) =>
    have := supply_turn_lt h nofun
    m.lex
termination_by l.supply

theorem lex_of_result {m : Lexer σ K} {result : Option (Except LexError (Token K))}
    (h : l.turn = (some result, m)) : l.lex = (result, m) := by
  rw [lex]
  split <;> simp_all

theorem lex_of_skip {m : Lexer σ K} (h : l.turn = (none, m)) : l.lex = m.lex := by
  rw [lex]
  split <;> simp_all

/-- Every token uses up some of the supply. -/
theorem supply_lex_lt {t : Token K} (h : l.lex = (some (.ok t), l')) : l'.supply < l.supply := by
  induction l using lex.induct with
  | case1 l result m turned =>
    rw [lex_of_result turned] at h
    cases h
    exact supply_turn_lt turned (by simp [Progress])
  | case2 l m turned lt ih =>
    rw [lex_of_skip turned] at h
    exact Nat.lt_trans (ih h) lt

theorem supply_stop_le (l : Lexer σ K) : l.stop.supply ≤ l.supply := by
  have := FiniteSource.supply_stop_le l.source
  rw [stop]
  split <;> simp only [discard, supply, List.length_nil, Nat.zero_sub] <;> omega

/-- All tokens to come, with the error that ends them if there is one. -/
def drain (l : Lexer σ K) : List (Except LexError (Token K)) × Lexer σ K :=
  match h : l.lex with
  | (none, m) => ([], m)
  | (some (.error e), m) => ([.error e], m)
  | (some (.ok t), m) =>
    have := supply_lex_lt h
    let (rest, last) := m.drain
    (.ok t :: rest, last)
termination_by l.supply

theorem drain_of_end {m : Lexer σ K} (h : l.lex = (none, m)) : l.drain = ([], m) := by
  rw [drain]
  split <;> simp_all

theorem drain_of_error {m : Lexer σ K} {e : LexError} (h : l.lex = (some (.error e), m)) :
    l.drain = ([.error e], m) := by
  rw [drain]
  split <;> simp_all

theorem drain_of_token {m : Lexer σ K} {t : Token K} (h : l.lex = (some (.ok t), m)) :
    l.drain = (.ok t :: m.drain.1, m.drain.2) := by
  rw [drain]
  split <;> simp_all

end FiniteSource

end Lexer
end Munch
