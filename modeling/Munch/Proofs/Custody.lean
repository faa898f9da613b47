import Munch.Proofs.Accounts
import Munch.Proofs.Lookahead

/-!
# No frame is lost

A frame that was pulled is on the stack until it is left behind by `lex`, dropped by a parser, or
forgotten with the whole stack. The ledger of a lexer tells which. It is right after every move, so
it is right in every run, and also while a call of `lex` goes on that may never return. What a call
has done to frames is read off the ledger behind it.

## Main definitions

* `Lexer.Books`: what a call does is in the ledger.
* `Lexer.every_frame_accounted`: the ledger of every run over every source.
-/

namespace Munch

/-- A token stands where its frame does. -/
theorem Entry.pos_of_result? {K : Type} {e : Entry K} {t : Token K}
    (h : e.result? = some (.ok t)) : t.pos = e.frame.pos := by
  rw [Entry.result?] at h
  split at h
  · cases h
  · cases h
  · cases h
    rfl
  · split at h <;> cases h
    rfl

namespace Lexer

variable {σ K : Type}

namespace Ledger

variable {a b c : Ledger}

/-- No frame is forgotten meanwhile. -/
def Spares (b c : Ledger) : Prop := ∀ n, .discarded n ∈ c.deeds → .discarded n ∈ b.deeds

/-- Frames are taken meanwhile, and nothing else is done to any. -/
def OnlyTakes (b c : Ledger) : Prop := ∃ numbers : List Nat, c.deeds = numbers.map .taken ++ b.deeds

theorem onlyTakes_of_eq (h : c.deeds = b.deeds) : b.OnlyTakes c := ⟨[], h⟩

theorem OnlyTakes.trans (h : a.OnlyTakes b) (h' : b.OnlyTakes c) : a.OnlyTakes c := by
  obtain ⟨first, before⟩ := h
  obtain ⟨later, behind⟩ := h'
  refine ⟨later ++ first, ?_⟩
  rw [behind, before, List.map_append, List.append_assoc]

theorem OnlyTakes.spares (h : b.OnlyTakes c) : b.Spares c := by
  obtain ⟨numbers, deeds⟩ := h
  intro n gone
  rw [deeds] at gone
  rcases List.mem_append.1 gone with taken | before
  · obtain ⟨m, -, impossible⟩ := List.mem_map.1 taken
    cases impossible
  · exact before

end Ledger

/-- What a call does is in the ledger: `x` is the lexer before the call, and `y` behind it. -/
structure Books (capacity : Nat) (c : Call) (r : Reply K) (x y : Booked σ K) : Prop where
  /-- A token is that of the frame that is taken last, behind some that are skipped. -/
  lexed : ∀ t, r = .token (some (.ok t)) → ∃ n f, ∃ skipped : List Nat,
    y.lexer.source.frames[n]? = some f ∧ f.pos = t.pos ∧
      y.ledger.deeds = .taken n :: (skipped.map .taken ++ x.ledger.deeds)
  /-- A lookahead gives the frame that is on the stack at its level. -/
  peeked : ∀ level f, c = .peek level → r = .peeked (.ok (some f)) → ∃ n,
    y.ledger.held[level]? = some n ∧ y.lexer.source.frames[n]? = some f ∧
      y.ledger.deeds = .peeked n :: x.ledger.deeds
  /-- What is dropped is the deepest frame on the stack. -/
  popped : ∀ f, r = .popped (some f) → ∃ n,
    x.ledger.held.getLast? = some n ∧ x.lexer.source.frames[n]? = some f ∧
      y.ledger = { held := x.ledger.held.dropLast, deeds := .popped n :: x.ledger.deeds }
  /-- Frames are forgotten only in a call that gives the lexer up. -/
  spared : ¬c.Finishes capacity r → x.ledger.Spares y.ledger

section Calls

variable [FrameSource σ] {l m : Lexer (Recorded σ) K} {x : Booked σ K} {c : Call} {r : Reply K}
  {ms : List Move} {e : Entry K} {rest : List (Entry K)}

namespace Booked

omit [FrameSource σ] in
/-- Nothing is done to a frame that is left behind. -/
theorem deeds_shifted (x : Booked σ K) :
    (if x.lexer.consumed then x.ledger.shift else x.ledger).deeds = x.ledger.deeds := by
  split <;> rfl

theorem deeds_extend (succeeds : x.lexer.fails .extend = false) :
    (x.move .extend).ledger.deeds = x.ledger.deeds := by
  rw [move, Ledger.note_of_succeeds succeeds]
  rfl

theorem deeds_take (succeeds : x.lexer.fails .take = false) {n : Nat} {behind : List Nat}
    (held : (if x.lexer.consumed then x.ledger.shift else x.ledger).held = n :: behind) :
    (x.move .take).ledger.deeds = .taken n :: x.ledger.deeds := by
  rw [move, Ledger.note_of_succeeds succeeds, Ledger.record, Ledger.take_of_cons held,
    deeds_shifted]

theorem onlyTakes_take (succeeds : x.lexer.fails .take = false) :
    x.ledger.OnlyTakes (x.move .take).ledger := by
  cases held : (if x.lexer.consumed then x.ledger.shift else x.ledger).held with
  | nil =>
    apply Ledger.onlyTakes_of_eq
    rw [move, Ledger.note_of_succeeds succeeds, Ledger.record, Ledger.take_of_nil held,
      deeds_shifted]
  | cons n behind => exact ⟨[n], deeds_take succeeds held⟩

/-- Nothing is done to a frame that is pulled for a turn before it is taken. -/
theorem deeds_pulled (succeeds : ∀ error, x.lexer.shift.extend.1 ≠ .error error) :
    ((x.move .shift).move .extend).ledger.deeds = x.ledger.deeds := by
  have pulls : (x.move .shift).lexer.fails .extend = false := by
    rw [fails]
    split
    · next error failed => exact absurd failed (succeeds error)
    · rfl
  rw [deeds_extend pulls, move, Ledger.note_of_succeeds rfl]
  exact deeds_shifted x

/-- A frame that does not fail the lexer is taken. -/
theorem fails_take (stack : l.shift.stack = e :: rest)
    (going : ∀ error, (l.shift.classify e).1 ≠ some (some (.error error))) :
    l.fails .take = false := by
  rcases made : e.result? with _ | error | t
  · simp [fails, stack, made]
  · have failed := going error
    rw [classify_of_error made] at failed
    exact absurd rfl failed
  · simp [fails, stack, made]

theorem onlyTakes_turn (going : ∀ error, x.lexer.turn.1 ≠ some (some (.error error))) :
    x.ledger.OnlyTakes (x.moves x.lexer.turnMoves).ledger := by
  have finds := finds_turn x.lexer
  generalize x.lexer.turn = result at finds going
  cases finds with
  | held stack =>
    rw [turnMoves_of_held stack]
    exact onlyTakes_take (fails_take stack going)
  | ended empty extended =>
    rw [turnMoves_of_nothing empty (by simp [extended])]
    exact Ledger.onlyTakes_of_eq (deeds_pulled (by simp [extended]))
  | lost => exact absurd rfl (going _)
  | @pulled m e empty extended stack =>
    have pulled : ((x.move .shift).move .extend).lexer = m := congrArg Prod.snd extended
    have fresh := shift_of_pulled extended
    have takes : ((x.move .shift).move .extend).lexer.fails .take = false := by
      have ahead : m.shift.stack = [e] := by rw [fresh, stack]
      rw [pulled]
      apply fails_take ahead
      rw [fresh]
      exact going
    have before := Ledger.onlyTakes_of_eq (deeds_pulled (x := x) (by simp [extended]))
    rw [turnMoves_of_pulled empty extended]
    exact before.trans (onlyTakes_take takes)

theorem onlyTakes_skips (skips : Skips x.lexer ms m) :
    x.ledger.OnlyTakes (x.moves ms).ledger := by
  generalize same : x.lexer = l at skips
  induction skips generalizing x with
  | refl l => exact Ledger.onlyTakes_of_eq rfl
  | @turn l k n more turned _ ih =>
    subst same
    have here : x.ledger.OnlyTakes (x.moves x.lexer.turnMoves).ledger :=
      onlyTakes_turn (by simp [turned])
    rw [moves_append]
    apply here.trans
    apply ih
    rw [lexer_moves, moves_turn, turned]

/-- Frames that are pulled onto the stack are all that comes to the ledger. -/
theorem deeds_extendMoves {n : Nat} {more : Bool} (h : (x.lexer.extendBy n).1 = .ok more) :
    (x.moves (x.lexer.extendMoves n)).ledger.deeds = x.ledger.deeds := by
  induction n generalizing x with
  | zero => rfl
  | succ n ih =>
    rw [extendBy] at h
    rw [extendMoves]
    rcases extended : x.lexer.extend with ⟨_ | _ | _, k⟩
    · rw [extended] at h
      cases h
    · have succeeds : x.lexer.fails .extend = false := by rw [fails, extended]
      exact deeds_extend succeeds
    · have succeeds : x.lexer.fails .extend = false := by rw [fails, extended]
      have pulled : (x.move .extend).lexer = k := congrArg Prod.snd extended
      rw [extended] at h
      dsimp only at h ⊢
      rw [← pulled] at h ⊢
      rw [moves_cons, ih h, deeds_extend succeeds]

/-- A lookahead that does not fail looks at its level when enough frames were pulled. -/
theorem moves_peek_of_ok {level : Nat} {f : Option Frame} (h : (x.lexer.peek level).1 = .ok f) :
    ∃ more, x.moves (x.lexer.peekMoves level) =
        (x.moves (x.lexer.extendMoves (level + 1 - x.lexer.stack.length))).move (.look level) ∧
      (x.lexer.extendBy (level + 1 - x.lexer.stack.length)).1 = .ok more ∧
      (x.lexer.extendBy (level + 1 - x.lexer.stack.length)).2.stack[level]?.map (·.frame) = f := by
  rw [peek] at h
  rw [peekMoves]
  by_cases full : x.lexer.capacity ≤ level
  · rw [if_pos full] at h
    cases h
  · rw [if_neg full] at h
    simp only [if_neg full]
    rcases extended : x.lexer.extendBy (level + 1 - x.lexer.stack.length) with ⟨_ | more, k⟩
    · rw [extended] at h
      cases h
    · rw [extended] at h
      cases h
      exact ⟨more, moves_append .., rfl, rfl⟩

theorem ledger_look {level n : Nat} (held : x.ledger.held[level]? = some n) :
    (x.move (.look level)).ledger =
      { held := x.ledger.held, deeds := .peeked n :: x.ledger.deeds } := by
  rw [move, Ledger.note_of_succeeds rfl, Ledger.record, Ledger.look, held]
  rfl

theorem ledger_pop {n : Nat} (held : x.ledger.held.getLast? = some n) :
    (x.move .pop).ledger =
      { held := x.ledger.held.dropLast, deeds := .popped n :: x.ledger.deeds } := by
  rw [move, Ledger.note_of_succeeds rfl, Ledger.record, Ledger.pop, held]
  rfl

theorem spares_peek {level : Nat}
    (unfinished : ¬Call.Finishes x.lexer.capacity (.peek level)
      (Reply.peeked (K := K) (x.lexer.peek level).1)) :
    x.ledger.Spares (x.moves (x.lexer.peekMoves level)).ledger := by
  rcases peeked : (x.lexer.peek level).1 with error | f
  · by_cases room : level < x.lexer.capacity
    · rw [peeked] at unfinished
      exact absurd (.peek error room) unfinished
    · rw [peekMoves, if_pos (Nat.not_lt.1 room)]
      exact fun n gone => gone
  · obtain ⟨more, moved, extended, -⟩ := moves_peek_of_ok peeked
    have deeds := deeds_extendMoves extended
    rw [moved, move, Ledger.note_of_succeeds rfl]
    intro n gone
    rw [← deeds]
    simpa [Ledger.record, Ledger.look] using gone

/-- A frame that is handed out is on the stack. -/
theorem peeked_of_peek (h : Accounts x.lexer x.ledger) {level : Nat} {f : Frame}
    (peeked : (x.lexer.peek level).1 = .ok (some f)) :
    let y := x.moves (x.lexer.peekMoves level)
    ∃ n, y.ledger.held[level]? = some n ∧ y.lexer.source.frames[n]? = some f ∧
      y.ledger.deeds = .peeked n :: x.ledger.deeds := by
  intro y
  obtain ⟨more, moved, extended, there⟩ := moves_peek_of_ok peeked
  have y_eq : y = _ := moved
  have accounts := accounts_moves h (x.lexer.extendMoves (level + 1 - x.lexer.stack.length))
  have deeds := deeds_extendMoves extended
  rw [← moves_extendBy, ← lexer_moves] at there
  generalize x.moves (x.lexer.extendMoves (level + 1 - x.lexer.stack.length)) = z at *
  obtain ⟨e, here, rfl⟩ := Option.map_eq_some_iff.1 there
  obtain ⟨n, held, frame⟩ := accounts.held_of_stack here
  refine ⟨n, ?_, ?_, ?_⟩
  · rw [y_eq, ledger_look held, held]
  · rw [y_eq]
    exact frame
  · rw [y_eq, ledger_look held, deeds]

theorem popped_of_pop (h : Accounts x.lexer x.ledger) {f : Frame}
    (popped : x.lexer.pop.1 = some f) : ∃ n,
      x.ledger.held.getLast? = some n ∧ x.lexer.source.frames[n]? = some f ∧
      (x.move .pop).ledger =
        { held := x.ledger.held.dropLast, deeds := .popped n :: x.ledger.deeds } := by
  have same := congrArg List.getLast? h.stack
  have top : x.lexer.stack.getLast?.map (·.frame) = some f := popped
  obtain ⟨e, last, rfl⟩ := Option.map_eq_some_iff.1 top
  rw [List.getLast?_map, List.getLast?_map, last] at same
  obtain ⟨n, held, frame⟩ := Option.map_eq_some_iff.1 same
  exact ⟨n, held, frame, ledger_pop held⟩

/-- A frame that gives a token was taken last. -/
theorem taken_of_take (h : Accounts x.lexer x.ledger) (stack : x.lexer.shift.stack = e :: rest)
    {t : Token K} (token : (x.lexer.shift.classify e).1 = some (some (.ok t))) :
    ∃ n f, (x.move .take).lexer.source.frames[n]? = some f ∧ f.pos = t.pos ∧
      (x.move .take).ledger.deeds = .taken n :: x.ledger.deeds := by
  obtain ⟨n, behind, held, frame⟩ := h.shift.held_of_first stack
  have made := result_of_classify token
  have succeeds : x.lexer.fails .take = false := fails_take stack (by simp [token])
  have source : (x.move .take).lexer.source = x.lexer.source := by
    rw [move, Lexer.move, take_of_stack stack, classify_of_token made]
    exact source_shift x.lexer
  refine ⟨n, e.frame, ?_, (Entry.pos_of_result? made).symm, deeds_take succeeds held⟩
  rw [source, ← source_shift x.lexer, frame]

theorem taken_of_turn (h : Accounts x.lexer x.ledger) {t : Token K}
    (turned : x.lexer.turn.1 = some (some (.ok t))) :
    let y := x.moves x.lexer.turnMoves
    ∃ n f, y.lexer.source.frames[n]? = some f ∧ f.pos = t.pos ∧
      y.ledger.deeds = .taken n :: x.ledger.deeds := by
  have finds := finds_turn x.lexer
  generalize x.lexer.turn = result at finds turned
  cases finds with
  | held stack =>
    rw [turnMoves_of_held stack]
    exact taken_of_take h stack turned
  | @pulled m e empty extended stack =>
    have pulled : ((x.move .shift).move .extend).lexer = m := congrArg Prod.snd extended
    have fresh := shift_of_pulled extended
    have accounts := accounts_move (accounts_move h .shift) .extend
    have ahead : ((x.move .shift).move .extend).lexer.shift.stack = [e] := by
      rw [pulled, fresh, stack]
    rw [turnMoves_of_pulled empty extended, ← deeds_pulled (x := x) (by simp [extended])]
    apply taken_of_take accounts ahead
    rw [pulled, fresh, turned]
  | ended => cases turned
  | lost => cases turned

theorem books_of_makes (h : Accounts x.lexer x.ledger) (makes : Makes x.lexer c r ms m) :
    Books x.lexer.capacity c r x (x.moves ms) where
  lexed t token := by
    generalize same : x.lexer = l at makes
    cases makes with
    | @lex k _ ms r skips turned =>
      cases token
      subst same
      have reached : (x.moves ms).lexer = k := by rw [lexer_moves, skips.moves_eq]
      obtain ⟨skipped, deeds⟩ := onlyTakes_skips skips
      rw [← reached] at turned ⊢
      rw [moves_append]
      obtain ⟨n, f, frame, place, taken⟩ := taken_of_turn (accounts_moves h ms) (by rw [turned])
      exact ⟨n, f, skipped, frame, place, by rw [taken, deeds]⟩
    | _ => cases token
  peeked level f called replied := by
    generalize same : x.lexer = l at makes
    cases makes with
    | peek =>
      cases called
      subst same
      exact peeked_of_peek h (Reply.peeked.inj replied)
    | _ => cases called
  popped f replied := by
    generalize same : x.lexer = l at makes
    cases makes with
    | pop =>
      subst same
      exact popped_of_pop h (Reply.popped.inj replied)
    | _ => cases replied
  spared unfinished := by
    generalize same : x.lexer = l at makes
    cases makes with
    | @lex k _ ms r skips turned =>
      subst same
      have reached : (x.moves ms).lexer = k := by rw [lexer_moves, skips.moves_eq]
      rw [← reached] at turned ⊢
      have going : ∀ error, (x.moves ms).lexer.turn.1 ≠ some (some (.error error)) := by
        intro error failed
        rw [turned] at failed
        cases failed
        exact unfinished (.lex error)
      rw [moves_append]
      exact ((onlyTakes_skips skips).trans (onlyTakes_turn going)).spares
    | peek level =>
      subst same
      exact spares_peek unfinished
    | pop =>
      rw [moves_cons, moves_nil, move, Ledger.note_of_succeeds rfl]
      intro n gone
      simpa [Ledger.record, Ledger.pop] using gone
    | stop => exact absurd .stop unfinished

end Booked

/-- The ledger of every run over every source, at its end and in the midst of a call of `lex` that
may never return: the stack holds pulled frames in the order of the pulls, `lex` takes each frame
at most once and in this order, nothing is done to a frame that was dropped or forgotten, and each
frame that was pulled is on the stack, or was taken, dropped or forgotten. A token is that of a
frame that its call took, lookahead gives and drops frames of the stack only, and frames are
forgotten only where the lexer is given up. -/
theorem every_frame_accounted (g : Grammar K) (source : σ) (capacity : Nat)
    {run : List (Call × Reply K)} {l : Lexer (Recorded σ) K}
    (runs : Runs (Lexer.start g { source } capacity) run l) :
    (∃ ms, Traces (Lexer.start g { source } capacity) run ms l) ∧
    ∀ ms, Traces (Lexer.start g { source } capacity) run ms l →
      let x := (Booked.start g source capacity).moves ms
      x.lexer = l ∧
      (∀ more m, Skips l more m → (x.moves more).lexer = m ∧ Accounts m (x.moves more).ledger ∧
        (m.consumed = true → m.stack ≠ []) ∧ x.ledger.OnlyTakes (x.moves more).ledger) ∧
      ∀ c r more m, Makes l c r more m → Books capacity c r x (x.moves more) := by
  refine ⟨exists_traces runs, fun ms traces => ?_⟩
  intro x
  have reached : x.lexer = l := by
    rw [Booked.lexer_moves]
    exact traces.moves_eq
  have accounts : Accounts x.lexer x.ledger :=
    Booked.accounts_moves (accounts_start g source capacity) ms
  refine ⟨reached, fun more m skips => ?_, fun c r more m makes => ?_⟩
  · have later : (x.moves more).lexer = m := by rw [Booked.lexer_moves, reached, skips.moves_eq]
    have after := Booked.accounts_moves accounts more
    rw [later] at after
    rw [← reached] at skips
    exact ⟨later, after, after.stack_ne_nil, Booked.onlyTakes_skips skips⟩
  · have room : x.lexer.capacity = capacity := by
      rw [Booked.lexer_moves, capacity_moves]
      rfl
    rw [← reached] at makes
    rw [← room]
    exact Booked.books_of_makes accounts makes

/-- A frame is looked at and dropped before `lex` comes to it, and another is forgotten. -/
theorem every_frame_accounted_past_pop :
    let first := Lexer.start .bracketed ({ source := .bracketed } : Recorded Script) 3
    let run : List (Call × Reply String) :=
      [(.peek 2, .peeked (.ok (some ⟨some 0, "x", ⟨0, 2⟩, 1⟩))),
        (.pop, .popped (some ⟨some 0, "x", ⟨0, 2⟩, 1⟩)),
        (.lex, .token (some (.ok ⟨"function", ⟨0, 4⟩⟩))), (.stop, .stopped)]
    ∃ last ms, Runs first run last ∧ Traces first run ms last ∧
      Accounts last ((Booked.start .bracketed Script.bracketed 3).moves ms).ledger := by
  intro first run
  have peeked : (first.peek 2).1 = .ok (some ⟨some 0, "x", ⟨0, 2⟩, 1⟩) := by decide +kernel
  have popped : (first.peek 2).2.pop.1 = some ⟨some 0, "x", ⟨0, 2⟩, 1⟩ := by decide +kernel
  have lexed : (first.peek 2).2.pop.2.lex.1 = some (.ok ⟨"function", ⟨0, 4⟩⟩) := by decide +kernel
  have runs : Runs first [(.peek 2, .peeked (first.peek 2).1),
      (.pop, .popped (first.peek 2).2.pop.1), (.lex, .token (first.peek 2).2.pop.2.lex.1),
      (.stop, .stopped)] _ :=
    .cons (.peek first 2) <| .cons (.pop _) <| .cons (.lex (lexes_iff.2 rfl)) <|
      .cons (.stop _) (.nil _)
  rw [peeked, popped, lexed] at runs
  obtain ⟨⟨ms, traces⟩, accounted⟩ := every_frame_accounted .bracketed Script.bracketed 3 runs
  obtain ⟨-, accounts, -⟩ := (accounted ms traces).2.1 [] _ (.refl _)
  exact ⟨_, ms, runs, traces, accounts⟩

/-- The ledger of that run. The frame that is dropped is never taken. -/
example : ((Booked.start .bracketed Script.bracketed 3).moves [.extend, .extend, .extend, .look 2,
    .pop, .take, .take, .shift, .extend, .take, .shift, .extend, .take, .stop]).ledger =
      { held := [], deeds := [.discarded 4, .taken 4, .taken 3, .taken 1, .taken 0, .popped 2,
        .peeked 2] } := by
  decide +kernel

end Calls

end Lexer

end Munch
