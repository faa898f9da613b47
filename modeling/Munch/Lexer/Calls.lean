import Munch.Lexer.Basic

/-!
# Runs of a lexer

What a user of a lexer does is a sequence of calls, each with its reply. A call of `lex` goes
on until a frame decides; over a source that never runs dry of frames that decide nothing it
does not return, so over arbitrary sources a returned call is a relation. Over a source of
finitely many frames it is the function.

## Main definitions

* `Lexer.Lexes`: `lex` returns with a result.
* `Lexer.Performs`, `Lexer.Runs`: one call, and calls in a row.
-/

namespace Munch.Lexer

/-- What can be asked of a lexer. -/
inductive Call where
  | lex
  | peek (level : Nat)
  | pop
  | stop

/-- What a call gives back. -/
inductive Reply (K : Type) where
  | token (result : Option (Except LexError (Token K)))
  | peeked (result : Except LexError (Option Frame))
  | popped (frame : Option Frame)
  | stopped

variable {σ K : Type} [FrameSource σ]

/-- `lex` returns after finitely many frames. -/
inductive Lexes : Lexer σ K → Option (Except LexError (Token K)) → Lexer σ K → Prop where
  | result {l m : Lexer σ K} {r : Option (Except LexError (Token K))} :
    l.turn = (some r, m) → Lexes l r m
  | skip {l m n : Lexer σ K} {r : Option (Except LexError (Token K))} :
    l.turn = (none, m) → Lexes m r n → Lexes l r n

/-- A call returns with a reply. -/
inductive Performs : Lexer σ K → Call → Reply K → Lexer σ K → Prop where
  | lex {l m : Lexer σ K} {r : Option (Except LexError (Token K))} :
    Lexes l r m → Performs l .lex (.token r) m
  | peek (l : Lexer σ K) (level : Nat) :
    Performs l (.peek level) (.peeked (l.peek level).1) (l.peek level).2
  | pop (l : Lexer σ K) : Performs l .pop (.popped l.pop.1) l.pop.2
  | stop (l : Lexer σ K) : Performs l .stop .stopped l.stop

/-- Calls in a row return with their replies. -/
inductive Runs : Lexer σ K → List (Call × Reply K) → Lexer σ K → Prop where
  | nil (l : Lexer σ K) : Runs l [] l
  | cons {l m n : Lexer σ K} {c : Call} {r : Reply K} {rest : List (Call × Reply K)} :
    Performs l c r m → Runs m rest n → Runs l ((c, r) :: rest) n

theorem Lexes.unique {l m n : Lexer σ K} {r s : Option (Except LexError (Token K))}
    (h : Lexes l r m) (h' : Lexes l s n) : r = s ∧ m = n := by
  induction h with
  | result turned =>
    cases h' with
    | result turned' => rw [turned] at turned'; cases turned'; exact ⟨rfl, rfl⟩
    | skip turned' _ => rw [turned] at turned'; cases turned'
  | skip turned _ ih =>
    cases h' with
    | result turned' => rw [turned] at turned'; cases turned'
    | skip turned' rest => rw [turned] at turned'; cases turned'; exact ih rest

/-- What a call replies and leaves is determined. -/
theorem Performs.unique {l m n : Lexer σ K} {c : Call} {r s : Reply K}
    (h : Performs l c r m) (h' : Performs l c s n) : r = s ∧ m = n := by
  cases h with
  | lex lexes =>
    cases h' with
    | lex lexes' =>
      obtain ⟨rfl, rfl⟩ := lexes.unique lexes'
      exact ⟨rfl, rfl⟩
  | peek level => cases h'; exact ⟨rfl, rfl⟩
  | pop => cases h'; exact ⟨rfl, rfl⟩
  | stop => cases h'; exact ⟨rfl, rfl⟩

/-- Over finitely many frames every call of `lex` returns. -/
theorem lexes_iff [FiniteSource σ] {l m : Lexer σ K} {r : Option (Except LexError (Token K))} :
    Lexes l r m ↔ l.lex = (r, m) := by
  have returns : ∀ l : Lexer σ K, Lexes l l.lex.1 l.lex.2 := fun l => by
    induction l using lex.induct with
    | case1 l result m turned => rw [lex_of_result turned]; exact .result turned
    | case2 l m turned _ ih => rw [lex_of_skip turned]; exact .skip turned ih
  constructor
  · intro h
    obtain ⟨rfl, rfl⟩ := h.unique (returns l)
    rfl
  · intro h
    have := returns l
    rwa [h] at this

/-- Over finitely many frames all calls return. -/
theorem exists_runs [FiniteSource σ] (l : Lexer σ K) (calls : List Call) :
    ∃ run m, Runs l run m ∧ run.map (·.1) = calls := by
  induction calls generalizing l with
  | nil => exact ⟨[], l, .nil l, rfl⟩
  | cons c calls ih =>
    obtain ⟨r, m, performs⟩ : ∃ r m, Performs l c r m := by
      cases c with
      | lex => exact ⟨_, _, .lex (lexes_iff.2 rfl)⟩
      | peek level => exact ⟨_, _, .peek l level⟩
      | pop => exact ⟨_, _, .pop l⟩
      | stop => exact ⟨_, _, .stop l⟩
    obtain ⟨run, last, runs, rfl⟩ := ih m
    exact ⟨(c, r) :: run, last, .cons performs runs, rfl⟩

/-- To drain a lexer is to ask it for tokens. -/
theorem exists_runs_drain [FiniteSource σ] (l : Lexer σ K) :
    ∃ run, Runs l run l.drain.2 ∧ ∀ r ∈ l.drain.1, (.lex, .token (some r)) ∈ run := by
  induction l using drain.induct with
  | case1 l m lexed =>
    rw [drain_of_end lexed]
    exact ⟨_, .cons (.lex (lexes_iff.2 lexed)) (.nil m), nofun⟩
  | case2 l e m lexed =>
    rw [drain_of_error lexed]
    refine ⟨_, .cons (.lex (lexes_iff.2 lexed)) (.nil m), fun r given => ?_⟩
    rw [List.mem_singleton.1 given]
    exact List.mem_cons_self
  | case3 l t m lexed _ _ _ _ ih =>
    obtain ⟨run, runs, given⟩ := ih
    rw [drain_of_token lexed]
    refine ⟨_, .cons (.lex (lexes_iff.2 lexed)) runs, List.forall_mem_cons.2 ⟨?_, ?_⟩⟩
    · exact List.mem_cons_self
    · exact fun r later => List.mem_cons_of_mem _ (given r later)

end Munch.Lexer
