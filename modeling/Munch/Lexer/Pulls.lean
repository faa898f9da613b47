import Munch.Lexer.Reading

/-!
# The pulls of a run

The calls of a lexer pull its source when the stack does not hold what they ask for. Nothing else
brings in a frame or changes the open grammars. So a property of lexers that every pull preserves,
and that taking frames from the stack and giving the lexer up leave alone, holds in every state of
a run in which the source is pulled, and what a call replies stems from entries that were pulled.

## Main definitions

* `Lexer.Answers`: the ways a pull ends.
* `Lexer.Pulls`, `Lexer.PulledIn`: the states in which a call and a run pull the source.
* `Lexer.Keeps`: what does not pull preserves the property.
* `Lexer.Reply.StemsFrom`: where a reply comes from.
* `Lexer.Keeps.runs`: a property along a run.
-/

namespace Munch.Lexer

variable {σ K : Type} [FrameSource σ]

/-- The ways a pull ends. -/
inductive Answers (l : Lexer σ K) : Except LexError (Option (Entry K)) × Lexer σ K → Prop where
  | halted : l.status ≠ .running → Answers l (.ok none, l)
  | failed {e : LexError} {source : σ} : l.status = .running →
    FrameSource.pull l.source = (.error e, source) → Answers l (.error e, fail { l with source })
  | ended {source : σ} : l.status = .running → FrameSource.pull l.source = (.ok none, source) →
    Answers l (.ok none, { l with source, status := .stopped })
  | frame {f : Frame} {source : σ} {action : Option (Action K)} {scopes : List (Grammar K)} :
    l.status = .running → FrameSource.pull l.source = (.ok (some f), source) →
    resolve? l.scopes f = some (action, scopes) → Answers l (.ok (some ⟨f, action⟩), { l with
      source, scopes, status := if f.isSentinel then .drained else .running })
  | unknown {f : Frame} {source : σ} : l.status = .running →
    FrameSource.pull l.source = (.ok (some f), source) → resolve? l.scopes f = none →
    Answers l (.error (.unknownRule (f.automaton.getD 0) f.depth f.pos), fail { l with
      source, status := if f.isSentinel then .drained else .running })

theorem answers_pull (l : Lexer σ K) : l.Answers l.pull := by
  rw [pull]
  split
  · next running =>
    rcases pulled : FrameSource.pull l.source with ⟨e | _ | f, source⟩
    · exact .failed running pulled
    · exact .ended running pulled
    · dsimp only
      cases rule : resolve? l.scopes f with
      | none => exact .unknown running pulled rule
      | some p => exact .frame running pulled rule
  · next halted => exact .halted halted

/-- The states of a lexer in which a call pulls the source. -/
inductive Pulls : Lexer σ K → Call → Lexer σ K → Prop where
  | lex {l : Lexer σ K} : l.shift.stack = [] → Pulls l .lex l.shift
  /-- The frame of a turn is skipped. -/
  | skip {l m n : Lexer σ K} : l.turn = (none, m) → Pulls m .lex n → Pulls l .lex n
  | peek {l : Lexer σ K} {level : Nat} : level < l.capacity → l.stack.length ≤ level →
    Pulls l (.peek level) l
  /-- The frame that was pulled is not yet the one at the level. -/
  | deepen {l m n : Lexer σ K} {level : Nat} : level < l.capacity → l.stack.length ≤ level →
    l.extend = (.ok true, m) → Pulls m (.peek level) n → Pulls l (.peek level) n

/-- The states of a lexer in which a run of calls pulls the source. -/
inductive PulledIn : Lexer σ K → List (Call × Reply K) → Lexer σ K → Prop where
  | here {l m : Lexer σ K} {c : Call} {r : Reply K} {rest : List (Call × Reply K)} :
    Pulls l c m → PulledIn l ((c, r) :: rest) m
  | later {l m n : Lexer σ K} {c : Call} {r : Reply K} {rest : List (Call × Reply K)} :
    Performs l c r m → PulledIn m rest n → PulledIn l ((c, r) :: rest) n

/-- A pull of the run gives the entry. -/
def Gains (l : Lexer σ K) (run : List (Call × Reply K)) (e : Entry K) : Prop :=
  ∃ m n, PulledIn l run m ∧ m.pull = (.ok (some e), n)

/-- The error that a call replies. -/
def Reply.error? : Reply K → Option LexError
  | .token (some (.error e)) | .peeked (.error e) => some e
  | _ => none

/-- Where a reply comes from, with the entries `Q` that it may come from and the errors `E` that a
pull may end with. -/
inductive Reply.StemsFrom (Q : Entry K → Prop) (E : LexError → Prop) : Reply K → Prop where
  | result {e : Entry K} {x : Except LexError (Token K)} :
    Q e → e.result? = some x → StemsFrom Q E (.token (some x))
  | ended : StemsFrom Q E (.token none)
  | failed {e : LexError} : E e → StemsFrom Q E (.token (some (.error e)))
  | peeked {e : Entry K} : Q e → StemsFrom Q E (.peeked (.ok (some e.frame)))
  | absent : StemsFrom Q E (.peeked (.ok none))
  | refused (capacity : Nat) : StemsFrom Q E (.peeked (.error (.lookaheadOverflow capacity)))
  | broken {e : LexError} : E e → StemsFrom Q E (.peeked (.error e))
  | popped {e : Entry K} : Q e → StemsFrom Q E (.popped (some e.frame))
  | empty : StemsFrom Q E (.popped none)
  | stopped : StemsFrom Q E .stopped

/-- An error that does not come from a pull is a refused lookahead or a text without an entry in
its table. -/
theorem Reply.StemsFrom.error {Q : Entry K → Prop} {E : LexError → Prop} {r : Reply K}
    {e : LexError} (h : r.StemsFrom Q E) (he : r.error? = some e) :
    E e ∨ (∃ capacity, e = .lookaheadOverflow capacity) ∨
      ∃ table lexeme pos, e = .unknownLexeme table lexeme pos := by
  cases h with
  | @result entry x _ made =>
    cases x with
    | ok t => cases he
    | error e' =>
      cases he
      exact .inr (.inr (Entry.error_of_result? made))
  | failed h => cases he; exact .inl h
  | broken h => cases he; exact .inl h
  | refused capacity => cases he; exact .inr (.inl ⟨capacity, rfl⟩)
  | _ => cases he

/-- Taking frames from the stack and giving the lexer up leave the property alone. -/
structure Keeps (P : Lexer σ K → Prop) : Prop where
  shift : ∀ l, P l → P l.shift
  consume : ∀ l, P l → P { l with consumed := true }
  pop : ∀ l, P l → P l.pop.2
  stop : ∀ l, P l → P l.stop
  fail : ∀ l, P l → P l.fail

theorem Keeps.and {P Q : Lexer σ K → Prop} (h : Keeps P) (h' : Keeps Q) :
    Keeps fun l => P l ∧ Q l where
  shift l hl := ⟨h.shift l hl.1, h'.shift l hl.2⟩
  consume l hl := ⟨h.consume l hl.1, h'.consume l hl.2⟩
  pop l hl := ⟨h.pop l hl.1, h'.pop l hl.2⟩
  stop l hl := ⟨h.stop l hl.1, h'.stop l hl.2⟩
  fail l hl := ⟨h.fail l hl.1, h'.fail l hl.2⟩

/-- What is true of every entry on the stack stays so. -/
theorem keeps_stack (Q : Entry K → Prop) :
    Keeps fun l : Lexer σ K => ∀ e ∈ l.stack, Q e where
  shift l h e he := h e (l.stack_shift_suffix.mem he)
  consume _ h := h
  pop l h e he := h e (List.dropLast_subset _ he)
  stop l _ e he := by
    rw [Lexer.stop] at he
    split at he <;> cases he
  fail _ _ e he := nomatch he

/-! ## A property along a run -/

variable {P : Lexer σ K → Prop} {Q : Entry K → Prop} {E : LexError → Prop} {l m : Lexer σ K}
  {e : Entry K}

theorem extend_true (h : l.extend = (.ok true, m)) :
    m.capacity = l.capacity ∧ ∃ e, m.stack = l.stack ++ [e] := by
  have answers := answers_pull l
  rw [extend] at h
  generalize l.pull = answer at answers h
  cases answers with
  | frame =>
    dsimp only at h
    split at h <;> cases h
    exact ⟨rfl, _, rfl⟩
  | _ => cases h

/-- A pull adds to the stack only the entry that it gives. -/
theorem stack_extend (he : e ∈ l.extend.2.stack) :
    e ∈ l.stack ∨ ∃ m, l.pull = (.ok (some e), m) := by
  have answers := answers_pull l
  rw [extend] at he
  generalize l.pull = answer at answers he ⊢
  cases answers with
  | halted => exact .inl he
  | ended => exact .inl he
  | failed => cases he
  | unknown => cases he
  | frame =>
    dsimp only at he
    split at he
    · rcases List.mem_append.1 he with he | he
      · exact .inl he
      · obtain rfl := List.mem_singleton.1 he
        exact .inr ⟨_, rfl⟩
    · cases he

theorem error_of_extend {error : LexError} (h : l.extend.1 = .error error) :
    l.pull.1 = .error error ∨ ∃ capacity, error = .lookaheadOverflow capacity := by
  rw [extend] at h
  split at h
  · next pulled =>
    cases h
    exact .inl (by rw [pulled])
  · cases h
  · split at h
    · cases h
    · cases h
      exact .inr ⟨_, rfl⟩

/-- What pulls may do to a lexer with the property: they keep it, and end with no other errors. -/
def Extends (P : Lexer σ K → Prop) (E : LexError → Prop) (l : Lexer σ K) : Prop :=
  P l.extend.2 ∧ ∀ e, l.extend.1 = .error e → E e

section Walk

variable (keeps : Keeps P) (held : ∀ l, P l → ∀ e ∈ l.stack, Q e)
include keeps held

theorem Keeps.classify (h : P l) (he : e ∈ l.stack) :
    P (l.classify e).2 ∧
      ∀ r, (l.classify e).1 = some r → (Reply.token r).StemsFrom Q E := by
  have consumed := keeps.consume l h
  rcases made : e.result? with _ | error | t
  · rw [classify_of_none made]
    refine ⟨consumed, fun r hr => ?_⟩
    dsimp only at hr
    split at hr <;> cases hr
    exact .ended
  · rw [classify_of_error made]
    refine ⟨keeps.fail _ consumed, fun r hr => ?_⟩
    cases hr
    exact .result (held l h e he) made
  · rw [classify_of_token made]
    refine ⟨consumed, fun r hr => ?_⟩
    cases hr
    exact .result (held l h e he) made

theorem Keeps.turn (h : P l)
    (pull : l.shift.stack = [] → P l.shift → Extends P E l.shift) :
    P l.turn.2 ∧ ∀ r, l.turn.1 = some r → (Reply.token r).StemsFrom Q E := by
  have shifted := keeps.shift l h
  rw [Lexer.turn]
  split
  · next e _ ahead => exact keeps.classify held shifted (by simp [ahead])
  · next empty =>
    obtain ⟨kept, errors⟩ := pull empty shifted
    rcases extended : l.shift.extend with ⟨e | _ | _, m⟩ <;> rw [extended] at kept errors
    · refine ⟨kept, fun r hr => ?_⟩
      cases hr
      exact .failed (errors e rfl)
    · refine ⟨kept, fun r hr => ?_⟩
      cases hr
      exact .ended
    · dsimp only
      split
      · next e _ ahead => exact keeps.classify held kept (by simp [ahead])
      · refine ⟨kept, fun r hr => ?_⟩
        cases hr
        exact .ended

theorem Keeps.lexes {r : Option (Except LexError (Token K))} (lexes : Lexes l r m) (h : P l)
    (pull : ∀ n, Pulls l .lex n → P n → Extends P E n) :
    P m ∧ (∀ n, Pulls l .lex n → P n) ∧ (Reply.token r).StemsFrom Q E := by
  induction lexes with
  | result turned =>
    have ⟨kept, stems⟩ := keeps.turn held h fun empty => pull _ (.lex empty)
    rw [turned] at kept stems
    refine ⟨kept, fun n pulls => ?_, stems _ rfl⟩
    cases pulls with
    | lex => exact keeps.shift _ h
    | skip skipped =>
      rw [turned] at skipped
      cases skipped
  | skip turned _ ih =>
    have ⟨kept, _⟩ := keeps.turn held h fun empty => pull _ (.lex empty)
    rw [turned] at kept
    obtain ⟨last, visited, stems⟩ := ih kept fun n pulls => pull n (.skip turned pulls)
    refine ⟨last, fun n pulls => ?_, stems⟩
    cases pulls with
    | lex => exact keeps.shift _ h
    | skip skipped pulls =>
      rw [turned] at skipped
      cases skipped
      exact visited n pulls

omit keeps held in
theorem extendBy_keeps {level : Nat} (room : level < l.capacity) (h : P l)
    (pull : ∀ n, Pulls l (.peek level) n → P n → Extends P E n) {n : Nat}
    (missing : n = level + 1 - l.stack.length) :
    P (l.extendBy n).2 ∧ (∀ m, Pulls l (.peek level) m → P m) ∧
      ∀ e, (l.extendBy n).1 = .error e → E e := by
  induction n generalizing l with
  | zero =>
    refine ⟨h, fun m pulls => ?_, nofun⟩
    cases pulls with
    | peek _ short => omega
    | deepen _ short => omega
  | succ n ih =>
    have short : l.stack.length ≤ level := by omega
    have ⟨kept, errors⟩ := pull l (.peek room short) h
    rw [Lexer.extendBy]
    rcases extended : l.extend with ⟨e | _ | _, m⟩ <;> rw [extended] at kept errors
    · refine ⟨kept, fun m pulls => ?_, fun e he => errors e (by simpa using he)⟩
      cases pulls with
      | peek => exact h
      | deepen _ _ deeper => rw [extended] at deeper; cases deeper
    · refine ⟨kept, fun m pulls => ?_, nofun⟩
      cases pulls with
      | peek => exact h
      | deepen _ _ deeper => rw [extended] at deeper; cases deeper
    · obtain ⟨capacity, e, pushed⟩ := extend_true extended
      have fewer : n = level + 1 - m.stack.length := by
        rw [pushed, List.length_append, List.length_singleton]
        omega
      obtain ⟨last, visited, errors⟩ := ih (by rwa [capacity]) kept
        (fun k pulls => pull k (.deepen room short extended pulls)) fewer
      refine ⟨last, fun k pulls => ?_, errors⟩
      cases pulls with
      | peek => exact h
      | deepen _ _ deeper pulls =>
        rw [extended] at deeper
        cases deeper
        exact visited k pulls

omit keeps in
theorem peek_keeps (level : Nat) (h : P l)
    (pull : ∀ n, Pulls l (.peek level) n → P n → Extends P E n) :
    P (l.peek level).2 ∧ (∀ n, Pulls l (.peek level) n → P n) ∧
      (Reply.peeked (l.peek level).1).StemsFrom Q E := by
  rw [Lexer.peek]
  split
  · next full =>
    refine ⟨h, fun n pulls => ?_, .refused _⟩
    cases pulls with
    | peek room => omega
    | deepen room => omega
  · next room =>
    obtain ⟨kept, visited, errors⟩ := extendBy_keeps (by omega) h pull rfl
    rcases extended : l.extendBy (level + 1 - l.stack.length) with ⟨e | more, m⟩ <;>
      rw [extended] at kept errors
    · exact ⟨kept, visited, .broken (errors e rfl)⟩
    · refine ⟨kept, visited, ?_⟩
      dsimp only
      cases there : m.stack[level]? with
      | none => exact .absent
      | some e => exact .peeked (held m kept e (List.mem_of_getElem? there))

theorem Keeps.performs {c : Call} {r : Reply K} (performs : Performs l c r m) (h : P l)
    (pull : ∀ n, Pulls l c n → P n → Extends P E n) :
    P m ∧ (∀ n, Pulls l c n → P n) ∧ r.StemsFrom Q E := by
  cases performs with
  | lex lexes => exact keeps.lexes held lexes h pull
  | peek level => exact peek_keeps held level h pull
  | pop =>
    refine ⟨keeps.pop l h, nofun, ?_⟩
    rw [Lexer.pop, top?]
    cases top : l.stack.getLast? with
    | none => exact .empty
    | some e => exact .popped (held l h e (List.mem_of_getLast? top))
  | stop => exact ⟨keeps.stop l h, nofun, .stopped⟩

/-- What every pull of a run preserves holds wherever the source is pulled, and every reply stems
from an entry on the stack of a lexer with the property, or from an error of a pull. -/
theorem Keeps.runs {run : List (Call × Reply K)} (runs : Runs l run m) (h : P l)
    (pull : ∀ n, PulledIn l run n → P n → Extends P E n) :
    P m ∧ (∀ n, PulledIn l run n → P n) ∧ ∀ c r, (c, r) ∈ run → r.StemsFrom Q E := by
  induction runs with
  | nil l => exact ⟨h, nofun, nofun⟩
  | cons performs _ ih =>
    obtain ⟨kept, visited, stems⟩ :=
      keeps.performs held performs h fun n pulls => pull n (.here pulls)
    obtain ⟨last, later, rest⟩ := ih kept fun n pulled => pull n (.later performs pulled)
    refine ⟨last, fun n pulled => ?_, fun c r called => ?_⟩
    · cases pulled with
      | here pulls => exact visited n pulls
      | later performs' pulled =>
        obtain rfl := (performs.unique performs').2
        exact later n pulled
    · rcases List.mem_cons.1 called with here | called
      · cases here
        exact stems
      · exact rest c r called

end Walk

end Munch.Lexer
