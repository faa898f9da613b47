import Munch.Lexer.Calls

/-!
# Tokens read off the frames

What `lex` has to give, said without a stack and without lookahead. The frames are those that a
source gives in the order of the pulls, up to the sentinel or to the first pull without a frame.
Each of them belongs to a rule under the grammars that the frames before it leave open. End frames
and skipped frames give nothing, every other frame gives a token or an error, and nothing counts
behind an error.

## Main definitions

* `FrameSource.answers`, `FrameSource.framesOf`: what a source gives.
* `Lexer.entries?`: frames with what becomes of them.
* `Lexer.reading`: the tokens of frames, with the error that ends them if there is one.
* `Lexer.Reads`: the results of calls of `lex` in a row, read off the frames.
* `Lexer.Gives`: the results of `lex` in a run of calls.
-/

namespace Munch

namespace FrameSource

variable {σ : Type} [FrameSource σ]

/-- The answers of the next `n` pulls. -/
def answers (s : σ) : Nat → List (Except LexError (Option Frame))
  | 0 => []
  | n + 1 => (pull s).1 :: answers (pull s).2 n

/-- No pull ever fails. -/
def Reliable (s : σ) : Prop := ∀ n, ∀ a ∈ answers s n, ∃ frame, a = .ok frame

/-- The frames of answers, up to the sentinel or to the first answer without a frame. -/
def framesOf : List (Except LexError (Option Frame)) → List Frame
  | .ok (some f) :: rest => f :: if f.isSentinel then [] else framesOf rest
  | _ => []

/-- One of the answers is the sentinel or comes without a frame. -/
def ends (answers : List (Except LexError (Option Frame))) : Bool :=
  answers.any fun
    | .ok (some f) => f.isSentinel
    | _ => true

end FrameSource

/-- What the frame of an entry gives: a token, or the error that its text is missing from the
table; nothing for an end frame and for a frame that is skipped. -/
def Entry.result? {K : Type} (e : Entry K) : Option (Except LexError (Token K)) :=
  match e.action with
  | none | some .skip => none
  | some (.pass kind) => some (.ok ⟨kind e.frame.text, e.frame.pos⟩)
  | some (.lookup table) =>
    some (match table.get? e.frame.text with
      | some kind => .ok ⟨kind, e.frame.pos⟩
      | none => .error (.unknownLexeme table.name e.frame.text e.frame.pos))

/-- Only a text that is missing from its table is an error. -/
theorem Entry.error_of_result? {K : Type} {e : Entry K} {error : LexError}
    (h : e.result? = some (.error error)) :
    ∃ table lexeme pos, error = .unknownLexeme table lexeme pos := by
  rw [Entry.result?] at h
  split at h
  · cases h
  · cases h
  · cases h
  · split at h <;> cases h
    exact ⟨_, _, _, rfl⟩

namespace Lexer

variable {σ K : Type} [FrameSource σ]

/-- Frames with what becomes of each under the grammars that the frames before it leave open;
`none` if no rule belongs to one of them. -/
def entries? (scopes : List (Grammar K)) : List Frame → Option (List (Entry K))
  | [] => some []
  | f :: rest => do
    let (action, scopes) ← resolve? scopes f
    let entries ← entries? scopes rest
    return ⟨f, action⟩ :: entries

/-- Results up to the first error. -/
def upToError : List (Except LexError (Token K)) → List (Except LexError (Token K))
  | .ok t :: rest => .ok t :: upToError rest
  | .error e :: _ => [.error e]
  | [] => []

/-- The tokens of frames, with the error that ends them if there is one. -/
def reading (entries : List (Entry K)) : List (Except LexError (Token K)) :=
  upToError (entries.filterMap Entry.result?)

/-- Calls of `lex` give the reading of entries, and behind it nothing for ever; so they can go
beyond the reading only if it ends with an error or, as `closed` tells, no more entries come. -/
def Fills (entries : List (Entry K)) (closed : Bool)
    (results : List (Option (Except LexError (Token K)))) : Prop :=
  (∃ silent, results <+: (reading entries).map some ++ List.replicate silent none) ∧
    (results.length ≤ (reading entries).length ∨ closed = true ∨ ∃ e, .error e ∈ reading entries)

/-- The results of calls of `lex`, read off as many frames of the source as it takes. -/
def Reads (g : Grammar K) (source : σ) (results : List (Option (Except LexError (Token K)))) :
    Prop :=
  ∃ n entries, entries? [g] (FrameSource.framesOf (FrameSource.answers source n)) = some entries ∧
    Fills entries (FrameSource.ends (FrameSource.answers source n)) results

/-- The call is one of `lex`. -/
def Call.isLex : Call → Bool
  | .lex => true
  | _ => false

/-- The results of the calls of `lex` among calls. -/
def lexed (run : List (Call × Reply K)) : List (Option (Except LexError (Token K))) :=
  run.filterMap fun
    | (_, .token result) => some result
    | _ => none

/-- The calls return with results of `lex`. -/
def Gives (l : Lexer σ K) (calls : List Call)
    (results : List (Option (Except LexError (Token K)))) : Prop :=
  ∃ run last, Runs l run last ∧ run.map (·.1) = calls ∧ lexed run = results

section Classify

variable {l : Lexer σ K} {e : Entry K}

/-- A frame is classified by the result of its entry. -/
theorem classify_eq (l : Lexer σ K) (e : Entry K) :
    l.classify e = match e.result? with
      | some (.ok t) => (some (some (.ok t)), { l with consumed := true })
      | some (.error error) => (some (some (.error error)), fail { l with consumed := true })
      | none => (if e.action.isNone ∧ e.frame.isSentinel then some none else none,
          { l with consumed := true }) := by
  rw [classify, Entry.result?]
  cases e.action with
  | none => simp
  | some action =>
    cases action with
    | skip => simp
    | pass kind => rfl
    | lookup table =>
      dsimp only
      cases table.get? e.frame.text <;> rfl

theorem classify_of_none (h : e.result? = none) :
    l.classify e = (if e.action.isNone ∧ e.frame.isSentinel then some none else none,
      { l with consumed := true }) := by
  rw [classify_eq, h]

theorem classify_of_token {t : Token K} (h : e.result? = some (.ok t)) :
    l.classify e = (some (some (.ok t)), { l with consumed := true }) := by
  rw [classify_eq, h]

theorem classify_of_error {error : LexError} (h : e.result? = some (.error error)) :
    l.classify e = (some (some (.error error)), fail { l with consumed := true }) := by
  rw [classify_eq, h]

end Classify

section Reading

variable {e : Entry K} {entries more : List (Entry K)} {closed : Bool}
  {r : Option (Except LexError (Token K))} {results : List (Option (Except LexError (Token K)))}

@[simp] theorem reading_nil : reading ([] : List (Entry K)) = [] := rfl

theorem reading_of_none (h : e.result? = none) : reading (e :: entries) = reading entries := by
  simp [reading, h]

theorem reading_of_token {t : Token K} (h : e.result? = some (.ok t)) :
    reading (e :: entries) = .ok t :: reading entries := by
  simp [reading, h, upToError]

theorem reading_of_error {error : LexError} (h : e.result? = some (.error error)) :
    reading (e :: entries) = [.error error] := by
  simp [reading, h, upToError]

theorem fills_nil (entries : List (Entry K)) (closed : Bool) : Fills entries closed [] :=
  ⟨⟨0, List.nil_prefix⟩, .inl (Nat.zero_le _)⟩

/-- An entry without a result makes no difference. -/
theorem fills_of_none (h : e.result? = none) :
    Fills (e :: entries) closed results ↔ Fills entries closed results := by
  rw [Fills, Fills, reading_of_none h]

theorem fills_of_token {t : Token K} (h : e.result? = some (.ok t)) :
    Fills (e :: entries) closed (r :: results) ↔
      r = some (.ok t) ∧ Fills entries closed results := by
  simp only [Fills, reading_of_token h, List.map_cons, List.cons_append, List.cons_prefix_cons,
    List.length_cons, Nat.add_le_add_iff_right, List.mem_cons, reduceCtorEq, false_or,
    exists_and_left, and_assoc]

/-- Behind the end nothing follows. -/
theorem fills_end :
    Fills ([] : List (Entry K)) true (r :: results) ↔
      r = none ∧ Fills ([] : List (Entry K)) true results := by
  simp only [Fills, reading_nil, List.map_nil, List.nil_append, true_or, or_true, and_true]
  constructor
  · rintro ⟨silent, h⟩
    cases silent with
    | zero => exact absurd (List.prefix_nil.1 h) (List.cons_ne_nil _ _)
    | succ silent =>
      obtain ⟨none, rest⟩ := List.cons_prefix_cons.1 h
      exact ⟨none, silent, rest⟩
  · rintro ⟨rfl, silent, rest⟩
    exact ⟨silent + 1, List.cons_prefix_cons.2 ⟨rfl, rest⟩⟩

/-- If no more entries come, any number of calls has its results. -/
theorem exists_fills (entries : List (Entry K)) (length : Nat) :
    ∃ results : List (Option (Except LexError (Token K))),
      results.length = length ∧ Fills entries true results :=
  ⟨((reading entries).map some ++ List.replicate length none).take length, by simp,
    ⟨length, List.take_prefix _ _⟩, .inr (.inl rfl)⟩

/-- Behind an error nothing follows. -/
theorem fills_of_error {error : LexError} (h : e.result? = some (.error error)) :
    Fills (e :: entries) closed (r :: results) ↔
      r = some (.error error) ∧ Fills ([] : List (Entry K)) true results := by
  simp only [Fills, reading_of_error h, reading_nil, List.map_cons, List.map_nil,
    List.cons_append, List.nil_append, List.cons_prefix_cons, exists_and_left, List.mem_singleton,
    Except.error.injEq, exists_eq, or_true, true_or, and_true]

theorem not_fills : ¬Fills ([] : List (Entry K)) false (r :: results) := by
  simp [Fills]

theorem upToError_prefix (a b : List (Except LexError (Token K))) :
    upToError a <+: upToError (a ++ b) := by
  induction a with
  | nil => exact List.nil_prefix
  | cons x a ih =>
    cases x with
    | error e => exact List.prefix_rfl
    | ok t => exact List.cons_prefix_cons.2 ⟨rfl, ih⟩

theorem upToError_append_of_error {a : List (Except LexError (Token K))}
    (h : ∃ x, .error x ∈ upToError a) (b : List (Except LexError (Token K))) :
    upToError (a ++ b) = upToError a := by
  induction a with
  | nil => simp [upToError] at h
  | cons x a ih =>
    cases x with
    | error e => rfl
    | ok t =>
      obtain ⟨e, he⟩ := h
      have later : .error e ∈ upToError a := by simpa [upToError] using he
      rw [List.cons_append, upToError, upToError, ih ⟨e, later⟩]

/-- More entries leave results as they are that the first ones fill already. -/
theorem Fills.append (h : Fills entries false results) (more : List (Entry K)) (closed : Bool) :
    Fills (entries ++ more) closed results := by
  obtain ⟨⟨silent, fits⟩, enough | ended | error⟩ := h
  · have longer : reading entries <+: reading (entries ++ more) := by
      rw [reading, reading, List.filterMap_append]
      exact upToError_prefix _ _
    have fits : results <+: (reading entries).map some :=
      List.prefix_of_prefix_length_le fits (List.prefix_append _ _) (by simpa using enough)
    refine ⟨⟨0, ?_⟩, .inl (Nat.le_trans enough longer.length_le)⟩
    rw [List.replicate_zero, List.append_nil]
    exact fits.trans (longer.map some)
  · cases ended
  · have same : reading (entries ++ more) = reading entries := by
      rw [reading, reading, List.filterMap_append]
      exact upToError_append_of_error error _
    exact ⟨⟨silent, same ▸ fits⟩, .inr (.inr (same ▸ error))⟩

end Reading

end Lexer
end Munch
