import Munch.Lexer.Reading

/-!
# The moves of a lexer

Whatever the calls of a lexer do to it comes down to a few moves: leave the current frame behind,
pull a frame onto the stack, take the next frame and classify it, drop the deepest frame, give up.
Each call is a sequence of moves, and so is what a call of `lex` has done so far that goes on for
ever. What every move preserves therefore holds at all times, and what happens to the single
frames can be told move by move.

## Main definitions

* `Lexer.Move`, `Lexer.move`, `Lexer.moves`: what is done to a lexer at once, and one after another.
* `Lexer.turnMoves`, `Lexer.peekMoves`: the moves of a turn of `lex`, and of a call of `peek`.
* `Lexer.Skips`: a call of `lex` is under way.
* `Lexer.Makes`, `Lexer.Traces`: the moves of a call, and of calls in a row.
* `Lexer.Extended`, `Lexer.Finds`: the ways of pulling onto the stack, and of a turn.
* `Lexer.Call.Finishes`: a call that gives the lexer up.
-/

namespace Munch.Lexer

variable {σ K : Type} [FrameSource σ]

/-- What is done to a lexer at once. -/
inductive Move where
  /-- Leave the current frame behind if it was made into a token. -/
  | shift
  /-- Pull a frame onto the stack. -/
  | extend
  /-- Make the first frame that is not consumed the current one, and classify it. -/
  | take
  /-- Hand out the frame at a level, which changes nothing. -/
  | look (level : Nat)
  /-- Drop the deepest frame. -/
  | pop
  /-- Give up. -/
  | stop

/-- Make the first frame that is not consumed the current one, and classify it. -/
def take (l : Lexer σ K) : Lexer σ K :=
  match l.shift.stack with
  | e :: _ => (l.shift.classify e).2
  | [] => l.shift

/-- A lexer after a move. -/
def move (l : Lexer σ K) : Move → Lexer σ K
  | .shift => l.shift
  | .extend => l.extend.2
  | .take => l.take
  | .look _ => l
  | .pop => l.pop.2
  | .stop => l.stop

/-- A lexer after moves in a row. -/
def moves (l : Lexer σ K) (ms : List Move) : Lexer σ K := ms.foldl move l

/-- The moves of a turn of `lex`. -/
def turnMoves (l : Lexer σ K) : List Move :=
  if l.shift.stack.isEmpty then
    match l.shift.extend.1 with
    | .ok true => [.shift, .extend, .take]
    | _ => [.shift, .extend]
  else [.take]

/-- The moves of pulling a number of frames, or as many as there are. -/
def extendMoves (l : Lexer σ K) : Nat → List Move
  | 0 => []
  | n + 1 =>
    match l.extend with
    | (.ok true, m) => .extend :: m.extendMoves n
    | _ => [.extend]

/-- The moves of a call of `peek`. -/
def peekMoves (l : Lexer σ K) (level : Nat) : List Move :=
  if l.capacity ≤ level then []
  else
    let pulls := level + 1 - l.stack.length
    match (l.extendBy pulls).1 with
    | .ok _ => l.extendMoves pulls ++ [.look level]
    | .error _ => l.extendMoves pulls

/-- A call of `lex` has skipped frames by moves and goes on. -/
inductive Skips : Lexer σ K → List Move → Lexer σ K → Prop where
  | refl (l : Lexer σ K) : Skips l [] l
  | turn {l m n : Lexer σ K} {ms : List Move} :
    l.turn = (none, m) → Skips m ms n → Skips l (l.turnMoves ++ ms) n

/-- A call returns with a reply after moves. -/
inductive Makes : Lexer σ K → Call → Reply K → List Move → Lexer σ K → Prop where
  | lex {l m n : Lexer σ K} {ms : List Move} {r : Option (Except LexError (Token K))} :
    Skips l ms m → m.turn = (some r, n) → Makes l .lex (.token r) (ms ++ m.turnMoves) n
  | peek (l : Lexer σ K) (level : Nat) :
    Makes l (.peek level) (.peeked (l.peek level).1) (l.peekMoves level) (l.peek level).2
  | pop (l : Lexer σ K) : Makes l .pop (.popped l.pop.1) [.pop] l.pop.2
  | stop (l : Lexer σ K) : Makes l .stop .stopped [.stop] l.stop

/-- Calls in a row return with their replies after moves. -/
inductive Traces : Lexer σ K → List (Call × Reply K) → List Move → Lexer σ K → Prop where
  | nil (l : Lexer σ K) : Traces l [] [] l
  | cons {l m n : Lexer σ K} {c : Call} {r : Reply K} {ms more : List Move}
    {rest : List (Call × Reply K)} :
    Makes l c r ms m → Traces m rest more n → Traces l ((c, r) :: rest) (ms ++ more) n

/-- The ways of pulling onto the stack. -/
inductive Extended (l : Lexer σ K) : Except LexError Bool × Lexer σ K → Prop where
  | halted : l.status ≠ .running → Extended l (.ok false, l)
  | ended {source : σ} : l.status = .running → FrameSource.pull l.source = (.ok none, source) →
    Extended l (.ok false, { l with source, status := .stopped })
  | pushed {f : Frame} {source : σ} {action : Option (Action K)} {scopes : List (Grammar K)} :
    l.status = .running → FrameSource.pull l.source = (.ok (some f), source) →
    resolve? l.scopes f = some (action, scopes) → Extended l (.ok true, { l with
      source, scopes, stack := l.stack ++ [⟨f, action⟩]
      status := if f.isSentinel then .drained else .running })
  /-- The pull failed, or the frame has no rule, or the stack is full. -/
  | lost {answer : Except LexError (Option Frame)} {source : σ} {m : Lexer σ K} {e : LexError} :
    l.status = .running → FrameSource.pull l.source = (answer, source) → answer ≠ .ok none →
    m.source = source → m.capacity = l.capacity → Extended l (.error e, m.fail)

/-- The ways of a turn. -/
inductive Finds (l : Lexer σ K) :
    Option (Option (Except LexError (Token K))) × Lexer σ K → Prop where
  | held {e : Entry K} {rest : List (Entry K)} : l.shift.stack = e :: rest →
    Finds l (l.shift.classify e)
  | pulled {m : Lexer σ K} {e : Entry K} : l.shift.stack = [] → l.shift.extend = (.ok true, m) →
    m.stack = [e] → Finds l (m.classify e)
  | ended {m : Lexer σ K} : l.shift.stack = [] → l.shift.extend = (.ok false, m) →
    Finds l (some none, m)
  | lost {m : Lexer σ K} {e : LexError} : l.shift.stack = [] → l.shift.extend = (.error e, m) →
    Finds l (some (some (.error e)), m)

/-- The call gives the lexer up: it is a request to stop, or it ends with an error. That a level
is refused as the stack has no room for it is no such error. -/
inductive Call.Finishes (capacity : Nat) : Call → Reply K → Prop where
  | stop : Finishes capacity .stop .stopped
  | lex (e : LexError) : Finishes capacity .lex (.token (some (.error e)))
  | peek {level : Nat} (e : LexError) : level < capacity →
    Finishes capacity (.peek level) (.peeked (.error e))

section Moves

variable {l m n : Lexer σ K}

@[simp] theorem moves_nil (l : Lexer σ K) : l.moves [] = l := rfl

@[simp] theorem moves_cons (l : Lexer σ K) (a : Move) (ms : List Move) :
    l.moves (a :: ms) = (l.move a).moves ms := rfl

@[simp] theorem moves_append (l : Lexer σ K) (ms more : List Move) :
    l.moves (ms ++ more) = (l.moves ms).moves more :=
  List.foldl_append

/-- What every move preserves holds after any moves. -/
theorem moves_induction {P : Lexer σ K → Prop} (step : ∀ l a, P l → P (l.move a)) (h : P l)
    (ms : List Move) : P (l.moves ms) := by
  induction ms generalizing l with
  | nil => exact h
  | cons a ms ih => exact ih (step l a h)

theorem extended_extend (l : Lexer σ K) : l.Extended l.extend := by
  rw [extend, pull]
  by_cases running : l.status = .running
  · rw [if_pos running]
    rcases pulled : FrameSource.pull l.source with ⟨e | _ | f, source⟩
    · exact .lost running pulled (by simp) rfl rfl
    · exact .ended running pulled
    · dsimp only
      cases rule : resolve? l.scopes f with
      | none => exact .lost running pulled (by simp) rfl rfl
      | some p =>
        dsimp only
        by_cases room : l.stack.length < l.capacity
        · rw [if_pos room]
          exact .pushed running pulled rule
        · rw [if_neg room]
          exact .lost running pulled (by simp) rfl rfl
  · rw [if_neg running]
    exact .halted running

theorem consumed_of_extend {more : Bool} (h : l.extend = (.ok more, m)) :
    m.consumed = l.consumed := by
  have extended := extended_extend l
  rw [h] at extended
  cases extended <;> rfl

theorem stack_of_extend (h : l.extend = (.ok true, m)) : ∃ e, m.stack = l.stack ++ [e] := by
  have extended := extended_extend l
  rw [h] at extended
  cases extended with
  | pushed => exact ⟨_, rfl⟩

theorem finds_turn (l : Lexer σ K) : l.Finds l.turn := by
  rw [turn]
  cases stack : l.shift.stack with
  | cons e rest => exact .held stack
  | nil =>
    rcases extended : l.shift.extend with ⟨e | _ | _, m⟩
    · exact .lost stack extended
    · exact .ended stack extended
    · obtain ⟨e, one⟩ := stack_of_extend extended
      rw [stack, List.nil_append] at one
      simp only [one]
      exact .pulled stack extended one

/-- What a frame gives, a token or an error, is what becomes of its text. -/
theorem result_of_classify {e : Entry K} {r : Except LexError (Token K)}
    (h : (l.classify e).1 = some (some r)) : e.result? = some r := by
  rcases made : e.result? with _ | error | t
  · rw [classify_of_none made] at h
    dsimp only at h
    split at h <;> cases h
  · rw [classify_of_error made] at h
    cases h
    rfl
  · rw [classify_of_token made] at h
    cases h
    rfl

theorem take_of_stack {e : Entry K} {rest : List (Entry K)} (h : l.shift.stack = e :: rest) :
    l.take = (l.shift.classify e).2 := by
  rw [take, h]

theorem turnMoves_of_held {e : Entry K} {rest : List (Entry K)} (h : l.shift.stack = e :: rest) :
    l.turnMoves = [.take] := by
  simp [turnMoves, h]

theorem turnMoves_of_pulled (empty : l.shift.stack = []) (h : l.shift.extend = (.ok true, m)) :
    l.turnMoves = [.shift, .extend, .take] := by
  simp [turnMoves, empty, h]

theorem turnMoves_of_nothing (empty : l.shift.stack = []) (h : l.shift.extend.1 ≠ .ok true) :
    l.turnMoves = [.shift, .extend] := by
  simp only [turnMoves, empty, List.isEmpty_nil, ↓reduceIte]

/-- A frame that was just pulled for a turn has nothing to leave behind before it. -/
theorem shift_of_pulled (h : l.shift.extend = (.ok true, m)) : m.shift = m := by
  apply shift_of_fresh
  rw [consumed_of_extend h, consumed_shift]

/-- A turn is made of its moves. -/
theorem moves_turn (l : Lexer σ K) : l.moves l.turnMoves = l.turn.2 := by
  have finds := finds_turn l
  generalize l.turn = result at finds ⊢
  cases finds with
  | held stack =>
    rw [turnMoves_of_held stack]
    exact take_of_stack stack
  | ended empty extended =>
    rw [turnMoves_of_nothing empty (by simp [extended])]
    simp [move, extended]
  | lost empty extended =>
    rw [turnMoves_of_nothing empty (by simp [extended])]
    simp [move, extended]
  | @pulled m e empty extended one =>
    have fresh := shift_of_pulled extended
    have taken : m.take = (m.classify e).2 := by
      have ahead : m.shift.stack = [e] := by rw [fresh, one]
      rw [take_of_stack ahead, fresh]
    rw [turnMoves_of_pulled empty extended]
    simp [move, extended, taken]

omit [FrameSource σ] in
/-- Dropping the deepest frame drops it from the frames that are not consumed, if it is one. -/
theorem stack_shift_pop (l : Lexer σ K) : l.pop.2.shift.stack = l.shift.stack.dropLast := by
  have popped : l.pop.2.stack = l.stack.dropLast := rfl
  have still : l.pop.2.consumed = (l.consumed && l.stack.length != 1) := rfl
  rw [stack_shift, stack_shift, popped, still]
  cases l.consumed with
  | false => rfl
  | true =>
    match l.stack with
    | [] => rfl
    | [_] => rfl
    | _ :: _ :: _ => simp

/-- A move leaves the room on the stack as it is. -/
theorem capacity_move (l : Lexer σ K) (a : Move) : (l.move a).capacity = l.capacity := by
  cases a with
  | shift => exact capacity_shift l
  | extend =>
    have extended := extended_extend l
    rw [move]
    generalize l.extend = result at extended ⊢
    cases extended with
    | lost _ _ _ _ same => exact same
    | _ => rfl
  | take =>
    rw [move, take]
    split
    · next e rest stack =>
      rw [classify_eq]
      split <;> exact capacity_shift l
    · exact capacity_shift l
  | look => rfl
  | pop => rfl
  | stop =>
    rw [move, stop]
    split <;> rfl

theorem capacity_moves (l : Lexer σ K) (ms : List Move) : (l.moves ms).capacity = l.capacity := by
  induction ms generalizing l with
  | nil => rfl
  | cons a ms ih => rw [moves_cons, ih, capacity_move]

theorem moves_extendBy (l : Lexer σ K) (n : Nat) :
    l.moves (l.extendMoves n) = (l.extendBy n).2 := by
  induction n generalizing l with
  | zero => rfl
  | succ n ih =>
    rw [extendMoves, extendBy]
    rcases extended : l.extend with ⟨e | _ | _, m⟩
    · simp [move, extended]
    · simp [move, extended]
    · simp [move, extended, ih]

theorem moves_peek (l : Lexer σ K) (level : Nat) :
    l.moves (l.peekMoves level) = (l.peek level).2 := by
  rw [peekMoves, peek]
  by_cases full : l.capacity ≤ level
  · simp [full]
  · have extended := l.moves_extendBy (level + 1 - l.stack.length)
    rw [if_neg full, if_neg full]
    rcases pulled : l.extendBy (level + 1 - l.stack.length) with ⟨e | more, m⟩ <;>
      simp only [pulled] at extended ⊢
    · exact extended
    · rw [moves_append, extended]
      rfl

/-- What a call of `lex` has done so far is made of its moves. -/
theorem Skips.moves_eq {ms : List Move} (h : Skips l ms m) : l.moves ms = m := by
  induction h with
  | refl l => rfl
  | turn turned _ ih => rw [moves_append, moves_turn, turned, ih]

/-- A call is made of its moves. -/
theorem Makes.moves_eq {c : Call} {r : Reply K} {ms : List Move} (h : Makes l c r ms m) :
    l.moves ms = m := by
  cases h with
  | lex skips turned => rw [moves_append, skips.moves_eq, moves_turn, turned]
  | peek level => exact l.moves_peek level
  | pop => rfl
  | stop => rfl

theorem Traces.moves_eq {run : List (Call × Reply K)} {ms : List Move} (h : Traces l run ms m) :
    l.moves ms = m := by
  induction h with
  | nil l => rfl
  | cons makes _ ih => rw [moves_append, makes.moves_eq, ih]

theorem exists_makes {c : Call} {r : Reply K} (h : Performs l c r m) : ∃ ms, Makes l c r ms m := by
  cases h with
  | lex lexes =>
    induction lexes with
    | result turned => exact ⟨_, .lex (.refl _) turned⟩
    | skip turned _ ih =>
      obtain ⟨ms, makes⟩ := ih
      cases makes with
      | lex skips last => exact ⟨_, .lex (.turn turned skips) last⟩
  | peek level => exact ⟨_, .peek l level⟩
  | pop => exact ⟨_, .pop l⟩
  | stop => exact ⟨_, .stop l⟩

/-- Every run is made of moves. -/
theorem exists_traces {run : List (Call × Reply K)} (h : Runs l run m) :
    ∃ ms, Traces l run ms m := by
  induction h with
  | nil l => exact ⟨[], .nil l⟩
  | cons performs _ ih =>
    obtain ⟨ms, makes⟩ := exists_makes performs
    obtain ⟨more, traces⟩ := ih
    exact ⟨ms ++ more, .cons makes traces⟩

end Moves

end Munch.Lexer
