import Mathlib.Tactic.IntervalCases
import Munch.Proofs.Recognizing
import Munch.Proofs.Words
import Munch.Shell.Grammar

/-!
# What the automata of the shell grammar recognize

Three automata of the shell grammar are put together state by state: those of comments, of numbers
before a redirection operator, and of words. Each row of their tables is worked out once; then the
language of a state is what may be left of the text when a run is in that state.

## Main definitions

* `recognizes_comment`, `recognizes_redirection`, `recognizes_word`: the languages.
-/

namespace Munch.Shell

open Automaton (State Edge)

variable {a : Automaton} {c : Char} {w : List Char}

/-- Comments run up to a newline, which they leave alone. -/
theorem recognizes_comment (built : comment.build = .ok a) :
    a.Recognizes fun w => ∃ cs, w = '#' :: cs ∧ '\n' ∉ cs := by
  have states := Builder.states_of_build built
  have row0 : a.states[0]? = some { edges := ['#'].map (Edge.single · (some 1)) } := by
    rw [states]
    decide +kernel
  have row1 : a.states[1]? = some {
      accepting := true, edges := ['\n'].map (Edge.single · none), otherwise := some 1 } := by
    rw [states]
    decide +kernel
  have behind (w : List Char) : a.AcceptsFrom 1 w ↔ '\n' ∉ w := by
    induction w with
    | nil => simp [Automaton.accepts_of_row row1]
    | cons c w ih =>
      rw [Automaton.acceptsFrom_cons, Automaton.step_of_row row1,
        State.step_of_group _ _ [] (List.append_nil _).symm, State.step_of_no_edges rfl]
      by_cases newline : c = '\n' <;> simp [newline, ih, eq_comm]
  apply Automaton.recognizes_of_silent
  · rw [states]
    decide +kernel
  · intro w
    cases w with
    | nil => simp [Automaton.accepts_of_row row0]
    | cons c w =>
      rw [Automaton.acceptsFrom_cons, Automaton.step_of_row row0,
        State.step_of_group _ _ [] (List.append_nil _).symm, State.step_of_no_edges rfl]
      by_cases sign : c = '#' <;> simp [sign, behind]

/-! ## Words -/

/-- What may be left of a word when a run is in a state. -/
def LeftOfWord : Nat → List Char → Prop
  | 0 => IsWord
  | 1 => Segments
  | 2 => ClosesSingle
  | 3 => ClosesDouble
  | 4 => fun w => ∃ d v, w = d :: v ∧ ClosesDouble v
  | _ => fun w => ∃ d v, w = d :: v ∧ Segments v

/-- The state behind a character of a word. -/
def wordMove : Nat → Char → Option Nat
  | 0, c | 1, c => if c ∈ delimiters.toList then none else if c = '\'' then some 2 else
      if c = '"' then some 3 else if c = '\\' then some 5 else some 1
  | 2, c => if c = '\'' then some 1 else some 2
  | 3, c => if c = '"' then some 1 else if c = '\\' then some 4 else some 3
  | 4, _ => some 3
  | _, _ => some 1

/-- What is left of a word behind a character is what the next state takes. -/
theorem leftOfWord_cons (q : Nat) (c : Char) (w : List Char) :
    LeftOfWord q (c :: w) ↔ ∃ t ∈ wordMove q c, LeftOfWord t w := by
  have outside : IsWord (c :: w) ↔ ∃ t ∈ wordMove 1 c, LeftOfWord t w := by
    have quotes : '\'' ∉ delimiters.toList ∧ '"' ∉ delimiters.toList ∧
        '\\' ∉ delimiters.toList := by decide
    rw [isWord_cons, wordMove, IsSpecial]
    by_cases delimiter : c ∈ delimiters.toList
    · have single : c ≠ '\'' := fun same => quotes.1 (same ▸ delimiter)
      have double : c ≠ '"' := fun same => quotes.2.1 (same ▸ delimiter)
      have escape : c ≠ '\\' := fun same => quotes.2.2 (same ▸ delimiter)
      simp [delimiter, single, double, escape]
    rw [if_neg delimiter]
    by_cases single : c = '\''
    · simp [single, LeftOfWord, quotes]
    by_cases double : c = '"'
    · simp [double, LeftOfWord, quotes]
    by_cases escape : c = '\\'
    · simp [escape, LeftOfWord, quotes]
    simp [delimiter, single, double, escape, LeftOfWord]
  match q with
  | 0 => exact outside
  | 1 => exact segments_cons.trans outside
  | 2 =>
    rw [wordMove, LeftOfWord, closesSingle_cons]
    by_cases single : c = '\'' <;> simp [single, LeftOfWord]
  | 3 =>
    rw [wordMove, LeftOfWord, closesDouble_cons]
    by_cases double : c = '"'
    · simp [double, LeftOfWord]
    · by_cases escape : c = '\\' <;> simp [double, escape, LeftOfWord]
  | 4 => simp [wordMove, LeftOfWord]
  | q + 5 => simp [wordMove, LeftOfWord]

theorem recognizes_word (built : word.build = .ok a) : a.Recognizes IsWord := by
  have states := Builder.states_of_build built
  let outside : List Edge := delimiters.toList.map (Edge.single · none) ++
    [.single '\'' (some 2), .single '"' (some 3), .single '\\' (some 5)]
  have rows : a.states = #[{ edges := outside, otherwise := some 1 },
      { accepting := true, edges := outside, otherwise := some 1 },
      { edges := [.single '\'' (some 1)], otherwise := some 2 },
      { edges := [.single '"' (some 1), .single '\\' (some 4)], otherwise := some 3 },
      { otherwise := some 3 }, { otherwise := some 1 }] := by
    rw [states]
    decide +kernel
  have moves (q : Nat) (inside : q < 6) (c : Char) : a.step q c = wordMove q c := by
    have start {s : State} (edges : s.edges = outside) (otherwise : s.otherwise = some 1) :
        s.step c = wordMove 1 c := by
      rw [State.step_of_group _ _ _ edges,
        State.step_of_group ['\''] (some 2) [.single '"' (some 3), .single '\\' (some 5)] rfl,
        State.step_of_group ['"'] (some 3) [.single '\\' (some 5)] rfl,
        State.step_of_group ['\\'] (some 5) [] rfl, State.step_of_no_edges rfl]
      simp [otherwise, wordMove]
    rw [Automaton.step, rows]
    interval_cases q
    · exact start rfl rfl
    · exact start rfl rfl
    · refine (State.step_of_group ['\''] (some 1) [] rfl c).trans ?_
      simp [State.step_of_no_edges, wordMove]
    · refine (State.step_of_group ['"'] (some 1) [.single '\\' (some 4)] rfl c).trans ?_
      rw [State.step_of_group ['\\'] (some 4) [] rfl c]
      simp [State.step_of_no_edges, wordMove]
    · rfl
    · rfl
  have size : a.size = 6 := by rw [Automaton.size, rows]; rfl
  have left (w : List Char) : ∀ q < 6, a.AcceptsFrom q w ↔ LeftOfWord q w := by
    -- A character leads to the state for what is left behind it.
    induction w with
    | nil =>
      intro q inside
      rw [Automaton.acceptsFrom_nil, Automaton.accepts, rows]
      interval_cases q <;> simp [LeftOfWord, Automaton.acceptsAt]
    | cons c w ih =>
      intro q inside
      rw [Automaton.acceptsFrom_cons, leftOfWord_cons, ← moves q inside]
      refine exists_congr fun t => and_congr_right fun there => ih t ?_
      exact size ▸ a.step_lt_size there
  apply Automaton.recognizes_of_silent
  · rw [states]
    decide +kernel
  · exact fun w => left w 0 (by decide)

/-! ## Numbers before a redirection operator -/

/-- A state without edges that accepts takes nothing more. -/
theorem acceptsFrom_of_leaf {q : Nat} (row : a.states[q]? = some { accepting := true }) :
    a.AcceptsFrom q w ↔ w = [] := by
  cases w with
  | nil => simp [Automaton.accepts_of_row row]
  | cons c w => simp [Automaton.acceptsFrom_cons, Automaton.step_of_row row, State.step]

/-- The spelling of an operator that a number may precede. -/
def SpellsRedirection (w : List Char) : Prop :=
  ∃ o : Operator, o.isRedirection = true ∧ w = o.lexeme.toList

theorem spellsRedirection_less : SpellsRedirection ('<' :: w) ↔
    w = [] ∨ w = ['<'] ∨ w = ['<', '-'] ∨ w = ['&'] ∨ w = ['>'] := by
  constructor
  · rintro ⟨o, redirects, same⟩
    cases o <;> simp_all [Operator.isRedirection, Operator.lexeme]
  · rintro (rfl | rfl | rfl | rfl | rfl)
    · exact ⟨.less, rfl, rfl⟩
    · exact ⟨.dLess, rfl, rfl⟩
    · exact ⟨.dLessDash, rfl, rfl⟩
    · exact ⟨.lessAnd, rfl, rfl⟩
    · exact ⟨.lessGreat, rfl, rfl⟩

theorem spellsRedirection_great : SpellsRedirection ('>' :: w) ↔
    w = [] ∨ w = ['>'] ∨ w = ['&'] ∨ w = ['|'] := by
  constructor
  · rintro ⟨o, redirects, same⟩
    cases o <;> simp_all [Operator.isRedirection, Operator.lexeme]
  · rintro (rfl | rfl | rfl | rfl)
    · exact ⟨.great, rfl, rfl⟩
    · exact ⟨.dGreat, rfl, rfl⟩
    · exact ⟨.greatAnd, rfl, rfl⟩
    · exact ⟨.clobber, rfl, rfl⟩

theorem SpellsRedirection.head (h : SpellsRedirection w) :
    ∃ c v, w = c :: v ∧ (c = '<' ∨ c = '>') := by
  obtain ⟨o, redirects, rfl⟩ := h
  cases o <;> simp_all [Operator.isRedirection, Operator.lexeme]

/-- A redirection operator begins with a delimiter, which is no digit. -/
theorem SpellsRedirection.opens (h : SpellsRedirection w) :
    ∃ c v, w = c :: v ∧ c ∈ delimiters.toList ∧ c ∉ digits.toList := by
  obtain ⟨c, v, same, rfl | rfl⟩ := h.head
  · exact ⟨'<', v, same, by decide⟩
  · exact ⟨'>', v, same, by decide⟩

/-- What may be left of a number with a redirection when a run is behind the first digit. -/
def LeftOfRedirection (w : List Char) : Prop :=
  ∃ ds v, (∀ c ∈ ds, c ∈ digits.toList) ∧ SpellsRedirection v ∧ w = ds ++ v

theorem leftOfRedirection_cons : LeftOfRedirection (c :: w) ↔
    c ∈ digits.toList ∧ LeftOfRedirection w ∨ c ∉ digits.toList ∧ SpellsRedirection (c :: w) := by
  constructor
  · rintro ⟨ds, v, digits, spells, same⟩
    cases ds with
    | nil =>
      obtain rfl : c :: w = v := same
      obtain ⟨d, v, same, -, other⟩ := spells.opens
      cases same
      exact .inr ⟨other, spells⟩
    | cons d ds =>
      cases same
      obtain ⟨digit, digits⟩ := List.forall_mem_cons.1 digits
      exact .inl ⟨digit, ds, v, digits, spells, rfl⟩
  · rintro (⟨digit, ds, v, digits, spells, rfl⟩ | ⟨-, spells⟩)
    · exact ⟨c :: ds, v, List.forall_mem_cons.2 ⟨digit, digits⟩, spells, rfl⟩
    · exact ⟨[], c :: w, nofun, spells, rfl⟩

/-- Behind its first digit a number with a redirection is what may be left of one. -/
theorem exists_redirection_iff : (∃ ds v, IsNumber ds ∧ SpellsRedirection v ∧ w = ds ++ v) ↔
    ∃ c v, w = c :: v ∧ c ∈ digits.toList ∧ LeftOfRedirection v := by
  constructor
  · rintro ⟨ds, v, ⟨nonempty, all⟩, spells, rfl⟩
    cases ds with
    | nil => exact absurd rfl nonempty
    | cons c ds =>
      obtain ⟨digit, others⟩ := List.forall_mem_cons.1 all
      exact ⟨c, ds ++ v, rfl, digit, ds, v, others, spells, rfl⟩
  · rintro ⟨c, _, rfl, digit, ds, v, others, spells, rfl⟩
    exact ⟨c :: ds, v, ⟨List.cons_ne_nil c ds, List.forall_mem_cons.2 ⟨digit, others⟩⟩, spells, rfl⟩

theorem recognizes_redirection (built : redirection.build = .ok a) :
    a.Recognizes fun w => ∃ ds v, IsNumber ds ∧ SpellsRedirection v ∧ w = ds ++ v := by
  have states := Builder.states_of_build built
  let more : List Edge := digits.toList.map (Edge.single · (some 1))
  have rows : a.states = #[{ edges := more },
      { edges := more ++ [.single '<' (some 2), .single '>' (some 7)] },
      { accepting := true,
        edges := [.single '<' (some 3), .single '&' (some 5), .single '>' (some 6)] },
      { accepting := true, edges := [.single '-' (some 4)] },
      { accepting := true }, { accepting := true }, { accepting := true },
      { accepting := true,
        edges := [.single '>' (some 8), .single '&' (some 9), .single '|' (some 10)] },
      { accepting := true }, { accepting := true }, { accepting := true }] := by
    rw [states]
    decide +kernel
  have leaf (q : Nat) (among : q ∈ [4, 5, 6, 8, 9, 10]) (w : List Char) :
      a.AcceptsFrom q w ↔ w = [] := by
    apply acceptsFrom_of_leaf
    rw [rows]
    simp only [List.mem_cons, List.not_mem_nil, or_false] at among
    rcases among with rfl | rfl | rfl | rfl | rfl | rfl <;> rfl
  have dash (w : List Char) : a.AcceptsFrom 3 w ↔ w = [] ∨ w = ['-'] := by
    cases w with
    | nil => simp [Automaton.accepts, Automaton.acceptsAt, rows]
    | cons c w =>
      by_cases minus : c = '-' <;>
        simp [Automaton.acceptsFrom_cons, Automaton.step, rows, State.step, leaf, minus]
  have less (w : List Char) : a.AcceptsFrom 2 w ↔
      w = [] ∨ w = ['<'] ∨ w = ['<', '-'] ∨ w = ['&'] ∨ w = ['>'] := by
    cases w with
    | nil => simp [Automaton.accepts, Automaton.acceptsAt, rows]
    | cons c w =>
      by_cases again : c = '<'
      · simp [Automaton.acceptsFrom_cons, Automaton.step, rows, State.step, dash, again]
      by_cases amp : c = '&'
      · simp [Automaton.acceptsFrom_cons, Automaton.step, rows, State.step, leaf, amp]
      by_cases great : c = '>' <;>
        simp [Automaton.acceptsFrom_cons, Automaton.step, rows, State.step, leaf, again, amp, great]
  have great (w : List Char) : a.AcceptsFrom 7 w ↔
      w = [] ∨ w = ['>'] ∨ w = ['&'] ∨ w = ['|'] := by
    cases w with
    | nil => simp [Automaton.accepts, Automaton.acceptsAt, rows]
    | cons c w =>
      by_cases again : c = '>'
      · simp [Automaton.acceptsFrom_cons, Automaton.step, rows, State.step, leaf, again]
      by_cases amp : c = '&'
      · simp [Automaton.acceptsFrom_cons, Automaton.step, rows, State.step, leaf, amp]
      by_cases pipe : c = '|' <;>
        simp [Automaton.acceptsFrom_cons, Automaton.step, rows, State.step, leaf, again, amp, pipe]
  have first (c : Char) : a.step 0 c = if c ∈ digits.toList then some 1 else none := by
    rw [Automaton.step, rows]
    exact State.step_of_group digits.toList (some 1) [] (List.append_nil _).symm c
  have next (c : Char) : a.step 1 c = if c ∈ digits.toList then some 1 else
      if c = '<' then some 2 else if c = '>' then some 7 else none := by
    rw [Automaton.step, rows]
    refine (State.step_of_group digits.toList (some 1) _ rfl c).trans ?_
    rw [State.step_of_group ['<'] (some 2) [.single '>' (some 7)] rfl,
      State.step_of_group ['>'] (some 7) [] rfl]
    simp [State.step_of_no_edges]
  have behind (w : List Char) : a.AcceptsFrom 1 w ↔ LeftOfRedirection w := by
    induction w with
    | nil =>
      have never : ¬SpellsRedirection [] := fun spells => by simpa using spells.head
      simp [Automaton.accepts, Automaton.acceptsAt, rows, LeftOfRedirection, never]
    | cons c w ih =>
      rw [leftOfRedirection_cons, Automaton.acceptsFrom_cons, next]
      by_cases digit : c ∈ digits.toList
      · simp [digit, ih]
      simp only [digit, if_false, false_and, false_or, not_false_eq_true, true_and]
      by_cases below : c = '<'
      · simp [below, less, spellsRedirection_less]
      by_cases above : c = '>'
      · simp [above, great, spellsRedirection_great]
      have never : ¬SpellsRedirection (c :: w) := fun spells => by
        obtain ⟨d, v, same, head⟩ := spells.head
        cases same
        exact head.elim below above
      simp [below, above, never]
  apply Automaton.recognizes_of_silent
  · rw [states]
    decide +kernel
  · intro w
    rw [exists_redirection_iff]
    cases w with
    | nil => simp [Automaton.accepts, Automaton.acceptsAt, rows]
    | cons c w =>
      rw [Automaton.acceptsFrom_cons, first]
      by_cases digit : c ∈ digits.toList <;> simp [digit, behind]

end Munch.Shell
