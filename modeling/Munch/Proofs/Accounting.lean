import Munch.Proofs.Splitting

/-!
# Nothing of a shell text is lost

The tokens of a shell text stand in it in order, each where its position says. What lies between
them is accounted for: blanks and comments, each a match of the rule that skips it, and single
quotes, double quotes and backslashes with which no automaton of the grammar begins a match.

## Main definitions

* `SkippedBy`: a rule matched a span and skipped it.
* `Accounted`: a text as tokens with what lies between them.
* `text_accounted`: every text is accounted for.
-/

namespace Munch.Shell

variable {g : Grammar Kind} {frames : List Frame} {before text rest : List Char}
  {ts : List (Token Kind)}

/-- The rule with the index has this automaton and skips its matches, and it matched the span behind
`before`. -/
def SkippedBy (g : Grammar Kind) (frames : List Frame) (automaton : Except BuildError Automaton)
    (i : Nat) (before span : List Char) : Prop :=
  ∃ a, automaton = .ok a ∧ g.get? i = some (⟨a, .skip⟩, none) ∧
    ⟨some i, String.ofList span, Position.visitAll {} before, 0⟩ ∈ frames

/-- The text behind `before` is made of the texts of the tokens, each at its position, and of what
is left out between them. -/
inductive Accounted (g : Grammar Kind) (frames : List Frame) :
    List Char → List Char → List (Token Kind) → Prop where
  | done (before : List Char) : Accounted g frames before [] []
  | token {before rest : List Char} {kind : Kind} {ts : List (Token Kind)} :
    kind.lexeme ≠ "" → Accounted g frames (before ++ kind.lexeme.toList) rest ts →
    Accounted g frames before (kind.lexeme.toList ++ rest)
      (⟨kind, Position.visitAll {} before⟩ :: ts)
  | blanks {before span rest : List Char} {ts : List (Token Kind)} :
    (∀ c ∈ span, c = ' ' ∨ c = '\t') →
    SkippedBy g frames (Automaton.oneOrMore " \t") 0 before span →
    Accounted g frames (before ++ span) rest ts → Accounted g frames before (span ++ rest) ts
  | comment {before cs rest : List Char} {ts : List (Token Kind)} : '\n' ∉ cs →
    SkippedBy g frames comment.build 2 before ('#' :: cs) →
    Accounted g frames (before ++ '#' :: cs) rest ts →
    Accounted g frames before ('#' :: cs ++ rest) ts
  | stray {before rest : List Char} {c : Char} {ts : List (Token Kind)} :
    c = '\'' ∨ c = '"' ∨ c = '\\' →
    (∀ fresh d, ¬g.automata.Offers fresh true (c :: rest) d) →
    Accounted g frames (before ++ [c]) rest ts → Accounted g frames before (c :: rest) ts

/-- Each token stands where its text stands. -/
theorem Accounted.pos_of_mem (h : Accounted g frames before text ts) : ∀ t ∈ ts, ∃ u v,
    before ++ text = u ++ (t.kind.lexeme.toList ++ v) ∧ t.pos = Position.visitAll {} u := by
  induction h with
  | done => nofun
  | @token before rest kind ts _ _ ih =>
    intro t ht
    rcases List.mem_cons.1 ht with rfl | ht
    · exact ⟨before, rest, rfl, rfl⟩
    · simpa using ih t ht
  | blanks _ _ _ ih | comment _ _ _ ih | stray _ _ _ ih => simpa using ih

/-- No piece begins with a character only if it opens a quoted part or an escape. -/
theorem stray_of_silence {c : Char} (silence : ∀ p : Piece, ¬p.text <+: c :: rest) :
    c = '\'' ∨ c = '"' ∨ c = '\\' := by
  have single (p : Piece) : p.text ≠ [c] := fun same => silence p (by simp [same])
  by_contra quotes
  have delimiter : c ∈ delimiters.toList := by
    by_contra other
    have plain : ¬IsSpecial c := not_or.2 ⟨other, quotes⟩
    exact single (.word [c] (.segment (.unquoted plain))) rfl
  simp only [delimiters, String.reduceToList, List.mem_cons, List.not_mem_nil, or_false]
    at delimiter
  rcases delimiter with rfl | rfl | rfl | rfl | rfl | rfl | rfl | rfl | rfl | rfl
  · exact single (.blanks [' '] (by simp) (by simp)) rfl
  · exact single (.blanks ['\t'] (by simp) (by simp)) rfl
  · exact single .newline rfl
  · exact single (.operator .amp) rfl
  · exact single (.operator .pipe) rfl
  · exact single (.operator .semi) rfl
  · exact single (.operator .less) rfl
  · exact single (.operator .great) rfl
  · exact single (.operator .lParen) rfl
  · exact single (.operator .rParen) rfl

theorem Operator.lexeme_ne_empty (o : Operator) : o.lexeme ≠ "" := by cases o <;> decide

/-- What makes tokens is made of their texts, none of which is empty. -/
theorem Piece.lexemes_eq_text (p : Piece) : p.kinds = [] ∨
    p.kinds.flatMap (·.lexeme.toList) = p.text ∧ ∀ kind ∈ p.kinds, kind.lexeme ≠ "" := by
  cases p with
  | blanks | comment => exact .inl rfl
  | newline => exact .inr ⟨rfl, by decide⟩
  | redirection number op isNumber redirects =>
    refine .inr ⟨by simp [Piece.kinds, Piece.text, Kind.lexeme], ?_⟩
    have nonempty : String.ofList number ≠ "" := fun none => isNumber.1 (ofList_eq_iff.1 none)
    simp [Piece.kinds, Kind.lexeme, nonempty, op.lexeme_ne_empty]
  | operator op => exact .inr ⟨by simp [Piece.kinds, Piece.text, Kind.lexeme], by
      simp [Piece.kinds, Kind.lexeme, op.lexeme_ne_empty]⟩
  | reserved r => exact .inr ⟨by simp [Piece.kinds, Piece.text, Kind.lexeme], by
      cases r <;> decide⟩
  | word text isWord =>
    have nonempty : String.ofList text ≠ "" := fun none => isWord.ne_nil (ofList_eq_iff.1 none)
    exact .inr ⟨by simp [Piece.kinds, Piece.text, Kind.lexeme], by
      simp [Piece.kinds, Kind.lexeme, nonempty]⟩

/-- The texts of tokens that follow one another are accounted for by these. -/
theorem Accounted.placed {kinds : List Kind} (nonempty : ∀ kind ∈ kinds, kind.lexeme ≠ "")
    (h : Accounted g frames (before ++ kinds.flatMap (·.lexeme.toList)) rest ts) :
    Accounted g frames before (kinds.flatMap (·.lexeme.toList) ++ rest)
      (placed (Position.visitAll {} before) kinds ++ ts) := by
  induction kinds generalizing before with
  | nil => simpa [Shell.placed] using h
  | cons kind kinds ih =>
    obtain ⟨first, others⟩ := List.forall_mem_cons.1 nonempty
    rw [List.flatMap_cons, List.append_assoc, Shell.placed, List.cons_append,
      ← Position.visitAll_append]
    rw [List.flatMap_cons, ← List.append_assoc] at h
    exact .token first (ih others h)

/-- The frames of parts account for their text. -/
theorem accounted_of_splits {parts : List Part} (built : grammar = .ok g)
    (splits : Splits text parts)
    (handed : ∀ f ∈ framesOf (Position.visitAll {} before) parts, f ∈ frames) :
    Accounted g frames before text (tokensOf (Position.visitAll {} before) parts) := by
  have speaks := speaks_grammar built
  obtain ⟨_, blanks, _, comment', _, _, _, _, -, first, -, third, -, -, -, -, rules⟩ :=
    grammar_eq built
  induction splits generalizing before with
  | done => exact .done before
  | @piece p rest parts leads _ ih =>
    simp only [framesOf, List.mem_append] at handed
    have here : ⟨some p.rule, String.ofList p.text, Position.visitAll {} before, 0⟩ ∈ frames :=
      handed _ (.inl List.mem_cons_self)
    have behind : Accounted g frames (before ++ p.text) rest
        (tokensOf (Position.visitAll {} (before ++ p.text)) parts) := by
      apply ih
      intro f hf
      rw [Position.visitAll_append] at hf
      exact handed f (.inr hf)
    rw [tokensOf, Part.text, ← Position.visitAll_append]
    rcases p.lexemes_eq_text with silent | ⟨lexemes, nonempty⟩
    · -- Only blanks and comments make no tokens.
      rw [Part.kinds, silent]
      cases p with
      | blanks span _ blank =>
        exact .blanks blank ⟨blanks, first, by rw [rules]; rfl, here⟩ behind
      | comment cs inLine =>
        exact .comment inLine ⟨comment', third, by rw [rules]; rfl, here⟩ behind
      | _ => cases silent
    · rw [← lexemes] at behind ⊢
      exact .placed nonempty behind
  | @stray c rest parts silence _ ih =>
    have behind : Accounted g frames (before ++ [c]) rest
        (tokensOf (Position.visitAll {} (before ++ [c])) parts) := by
      apply ih
      intro f hf
      rw [Position.visitAll_append] at hf
      exact handed f hf
    rw [Position.visitAll_append] at behind
    refine .stray (stray_of_silence silence) (fun fresh => ?_) behind
    exact (silence_iff speaks).2 silence

/-- The tokens of every text account for it, with what the rules of blanks and comments skip and
with quotes and backslashes at which no automaton of the grammar matches. -/
theorem text_accounted (text : String) (capacity : Nat) (room : 1 ≤ capacity) :
    ∃ g ts frames, grammar = .ok g ∧ tokens (.ofString text) capacity = .ok (ts.map .ok) ∧
      (Scanner.start g.automata (.ofString text)).results = frames.map .ok ∧
      Accounted g frames [] text.toList ts ∧
      ∀ t ∈ ts, ∃ u v, text.toList = u ++ (t.kind.lexeme.toList ++ v) ∧
        t.pos = Position.visitAll {} u := by
  obtain ⟨g, built⟩ := exists_grammar
  obtain ⟨parts, splits⟩ := exists_splits text.toList
  have accounted : Accounted g (framesOf {} parts) [] text.toList (tokensOf {} parts) :=
    accounted_of_splits built splits fun f hf => hf
  exact ⟨g, _, _, built, tokens_of_splits room splits, results_of_splits built splits, accounted,
    accounted.pos_of_mem⟩

/-- A comment, blanks, a number before its operator, and a quote that nothing closes. -/
theorem text_accounted_of_open_quote : ∃ g frames, grammar = .ok g ∧
    Accounted g frames [] "a 2>\tb 'c # d".toList [⟨.word "a", ⟨0, 0⟩⟩, ⟨.ioNumber "2", ⟨0, 2⟩⟩,
      ⟨.operator .great, ⟨0, 3⟩⟩, ⟨.word "b", ⟨0, 5⟩⟩, ⟨.word "c", ⟨0, 8⟩⟩] := by
  obtain ⟨g, ts, frames, built, all, -, accounted, -⟩ :=
    text_accounted "a 2>\tb 'c # d" 16 (by decide)
  have same : tokens (.ofString "a 2>\tb 'c # d") 16 = .ok ([⟨.word "a", ⟨0, 0⟩⟩,
      ⟨.ioNumber "2", ⟨0, 2⟩⟩, ⟨.operator .great, ⟨0, 3⟩⟩, ⟨.word "b", ⟨0, 5⟩⟩,
      ⟨.word "c", ⟨0, 8⟩⟩].map .ok) := by decide +kernel
  rw [same, Except.ok.injEq] at all
  have tokens := List.map_injective_iff.2 (fun _ _ => Except.ok.inj) all
  exact ⟨g, frames, built, tokens ▸ accounted⟩

end Munch.Shell
