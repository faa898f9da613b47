import Munch.Proofs.Escapes
import Munch.Proofs.Kinds
import Munch.Proofs.Splitting
import Munch.Shell.Display

/-!
# The line of a token tells the token

Without styles the line of a token is its position, two blanks, and its kind with its text. The
position holds no blank and its line number no colon, each kind begins with a letter of its own, and
behind it stands a spelling that no other operator or reserved word has, the digits of a number, or
a word that can be read back. So tokens with the same line are the same. All that such a line holds
can be shown, whatever characters the words of the text are made of.

## Main definitions

* `Position.label_injective`, `Shell.Kind.display_injective`: the two parts of a line.
* `Shell.Kind.IsSpelled`: words and numbers have the text that their rules ask for.
* `Shell.Gives`: the tokens that a shell lexer replies.
* `Shell.line_tells_token`: lines of tokens are unambiguous and hold no control characters.
-/

namespace Munch

/-! ## Positions -/

namespace Position

theorem toList_label (p : Position) :
    p.label.toList = Nat.toDigits 10 p.line.toNat ++ ':' :: Nat.toDigits 10 p.column.toNat := by
  have word (n : UInt64) : (toString n).toList = Nat.toDigits 10 n.toNat := Nat.toList_repr
  have parts : p.label = toString p.line ++ ":" ++ toString p.column := rfl
  simp [parts, word]

theorem label_injective {p q : Position} (h : p.label = q.label) : p = q := by
  have apart (n : UInt64) : ':' ∉ Nat.toDigits 10 n.toNat := fun colon =>
    absurd (Nat.isDigit_of_mem_toDigits (by decide) (by decide) colon) (by decide)
  have number {m n : UInt64} (same : Nat.toDigits 10 m.toNat = Nat.toDigits 10 n.toNat) :
      m = n := by
    have read := congrArg (Nat.ofDigitChars 10 · 0) same
    simp only [Nat.ofDigitChars_ten_toDigits] at read
    exact UInt64.toNat_inj.1 read
  have chars := congrArg String.toList h
  rw [toList_label, toList_label] at chars
  obtain ⟨line, -, column⟩ :=
    (List.append_cons_inj_of_notMem (apart p.line) (apart p.column)).1 chars
  calc
    p = ⟨q.line, q.column⟩ := by rw [← number line, ← number column]
    _ = q := rfl

/-- A label is made of digits and a colon. -/
theorem forall_mem_label {P : Char → Prop} (digits : ∀ d < 10, P (Nat.digitChar d)) (colon : P ':')
    (p : Position) : ∀ c ∈ p.label.toList, P c := by
  have number := Text.forall_mem_toDigits (by decide : 1 < 10) digits
  rw [toList_label, List.forall_mem_append, List.forall_mem_cons]
  exact ⟨number _, colon, number _⟩

end Position

namespace Shell

/-! ## Kinds -/

/-- A spelling has one entry in its table. -/
theorem Operator.lexeme_injective {o p : Operator} (h : o.lexeme = p.lexeme) : o = p := by
  have entry := get?_operatorTable o
  rw [h, get?_operatorTable] at entry
  cases entry
  rfl

theorem Reserved.lexeme_injective {r s : Reserved} (h : r.lexeme = s.lexeme) : r = s := by
  have entry := get?_reservedTable r
  rw [h, get?_reservedTable] at entry
  cases entry
  rfl

/-- Kinds are told apart by their first letters. -/
theorem Kind.display_injective {j k : Kind} (h : j.display false = k.display false) : j = k := by
  have chars := congrArg String.toList h
  cases j <;> cases k <;> simp [Kind.display] at chars
  case operator.operator => rw [Operator.lexeme_injective (String.toList_inj.1 chars)]
  case reserved.reserved => rw [Reserved.lexeme_injective (String.toList_inj.1 chars)]
  case word.word => rw [Text.escaped_injective (String.toList_inj.1 chars)]
  case ioNumber.ioNumber => rw [String.toList_inj.1 chars]
  case newline.newline => rfl

/-- The text of a word is one that the rule of words asks for, and so is that of a number. -/
def Kind.IsSpelled : Kind → Prop
  | .word text => IsWord text.toList
  | .ioNumber text => IsNumber text.toList
  | _ => True

theorem Kind.isPrintable_of_mem_display {k : Kind} (spelled : k.IsSpelled) {c : Char}
    (h : c ∈ (k.display false).toList) : Text.isPrintable c = true := by
  have shown {s : String} (all : s.toList.all Text.isPrintable = true) (h : c ∈ s.toList) :
      Text.isPrintable c = true := List.all_eq_true.1 all c h
  cases k with
  | operator o =>
    have all : ∀ o ∈ Operator.all, (display false (.operator o)).toList.all Text.isPrintable := by
      decide
    exact shown (all o o.mem_all) h
  | reserved r =>
    have all : ∀ r ∈ Reserved.all, (display false (.reserved r)).toList.all Text.isPrintable := by
      decide
    exact shown (all r r.mem_all) h
  | word text =>
    rw [display, bold_false, String.toList_append, List.mem_append] at h
    exact h.elim (shown (by decide)) Text.isPrintable_of_mem_escaped
  | ioNumber text =>
    rw [display, paint_false, String.toList_append, List.mem_append] at h
    refine h.elim (shown (by decide)) fun digit => ?_
    exact shown (s := digits) (by decide) (spelled.2 c digit)
  | newline => exact shown (by decide) h

/-! ## Lines -/

theorem toList_displayToken (t : Token Kind) :
    (displayToken false t).toList =
      t.pos.label.toList ++ ' ' :: ' ' :: (t.kind.display false).toList := by
  simp [displayToken]

/-- A line begins with the label of the position, which ends before the first blank. -/
theorem displayToken_injective {s t : Token Kind}
    (h : displayToken false s = displayToken false t) : s = t := by
  have chars := congrArg String.toList h
  rw [toList_displayToken, toList_displayToken] at chars
  have label : s.pos.label.toList = t.pos.label.toList := by
    have blank (p : Position) (rest : List Char) :
        (p.label.toList ++ ' ' :: rest).takeWhile (· != ' ') = p.label.toList := by
      rw [List.takeWhile_append_of_pos (p.forall_mem_label (by decide) (by decide))]
      simp
    have first := congrArg (List.takeWhile (· != ' ')) chars
    rwa [blank, blank] at first
  rw [label, List.append_cancel_left_eq, List.cons_inj_right, List.cons_inj_right] at chars
  have pos := Position.label_injective (String.toList_inj.1 label)
  have kind := Kind.display_injective (String.toList_inj.1 chars)
  cases s
  cases t
  cases pos
  cases kind
  rfl

theorem isPrintable_of_mem_displayToken {t : Token Kind} (spelled : t.kind.IsSpelled) {c : Char}
    (h : c ∈ (displayToken false t).toList) : Text.isPrintable c = true := by
  rw [toList_displayToken, List.mem_append, List.mem_cons, List.mem_cons] at h
  rcases h with label | rfl | rfl | kind
  · exact t.pos.forall_mem_label (P := (Text.isPrintable · = true)) (by decide) (by decide) c label
  · decide
  · decide
  · exact Kind.isPrintable_of_mem_display spelled kind

/-! ## Tokens of a lexer -/

theorem makes_grammar {g : Grammar Kind} (built : grammar = .ok g) :
    Family.All (Rule.Makes Kind.IsSpelled) g := by
  obtain ⟨io, blanks, newline, comment', redirection', operator, reserved, word', inside, -, second,
    -, -, -, -, seventh, rfl⟩ := grammar_eq built
  obtain ⟨number, digits, inside⟩ := exists_of_bind_ok inside
  obtain ⟨inner, -, inside⟩ := exists_of_bind_ok inside
  cases inside
  have skips (a : Automaton) := Rule.makes_skip Kind.IsSpelled a
  have operators (a : Automaton) : Rule.Makes Kind.IsSpelled ⟨a, .lookup operatorTable⟩ :=
    Rule.makes_lookup a (by simp [operatorTable, Kind.IsSpelled])
  have words (a : Automaton) : Rule.Makes Kind.IsSpelled ⟨a, .lookup reservedTable⟩ :=
    Rule.makes_lookup a (by simp [reservedTable, Kind.IsSpelled])
  have numbers : Rule.Makes Kind.IsSpelled ⟨number, .pass .ioNumber⟩ :=
    Rule.makes_pass (Automaton.recognizes_oneOrMore digits) fun w isNumber => by
      rwa [Kind.IsSpelled, String.toList_ofList]
  exact ⟨skips _, Rule.makes_pass (Automaton.recognizes_literals second) fun _ _ => trivial,
    skips _, skips _, ⟨numbers, operators _, trivial⟩, operators _, words _,
    Rule.makes_pass (recognizes_word seventh) fun w isWord => by
      rwa [Kind.IsSpelled, String.toList_ofList], trivial⟩

/-- In some run of calls a lexer of the input replies the token. -/
def Gives (input : Input) (t : Token Kind) : Prop :=
  ∃ capacity first run last c, lexer input capacity = .ok first ∧ Lexer.Runs first run last ∧
    (c, .token (some (.ok t))) ∈ run

theorem Gives.isSpelled {input : Input} {t : Token Kind} (h : Gives input t) :
    t.kind.IsSpelled := by
  obtain ⟨capacity, first, run, last, c, begun, runs, given⟩ := h
  obtain ⟨g, built⟩ := exists_grammar
  rw [lexer_eq built] at begun
  cases begun
  exact Lexer.kind_of_runs (makes_grammar built) input capacity runs given

theorem gives_of_tokens {input : Input} {capacity : Nat} {t : Token Kind}
    {results : List (Except LexError (Token Kind))} (all : tokens input capacity = .ok results)
    (among : .ok t ∈ results) : Gives input t := by
  obtain ⟨g, built⟩ := exists_grammar
  have begun := lexer_eq built input capacity
  rw [tokens_eq begun] at all
  cases all
  obtain ⟨run, runs, given⟩ := Lexer.exists_runs_drain
    (Lexer.start g (⟨Scanner.start g.automata input, false⟩ : Inline) capacity)
  exact ⟨capacity, _, run, _, .lex, begun, runs, given _ among⟩

/-- Whatever is lexed and whatever calls are made: no token but itself has the line of a token that
a lexer gives, which tells its kind, its text and its position, and there is no control character in
the line. -/
theorem line_tells_token {input : Input} {s : Token Kind} (given : Gives input s) :
    (∀ t, displayToken false t = displayToken false s → t = s) ∧
      ∀ c ∈ (displayToken false s).toList, ¬Text.IsControl c := by
  constructor
  · intro t same
    exact displayToken_injective same
  · intro c there
    have shown := isPrintable_of_mem_displayToken given.isSpelled there
    exact Text.not_isControl_of_isPrintable shown

/-- A newline and a bell in quotes make one word, which has another line than the word that
looks like its escapes. -/
theorem line_tells_token_of_quoted_newline :
    Gives (.ofString "a '\n\x07'") ⟨.word "'\n\x07'", ⟨0, 2⟩⟩ ∧
      displayToken false ⟨.word "'\n\x07'", ⟨0, 2⟩⟩ = "0:2  word \\'\\n\\u\x7b7\x7d\\'" ∧
      displayToken false ⟨.word "'\\n\\u\x7b7\x7d'", ⟨0, 2⟩⟩ ≠
        displayToken false ⟨.word "'\n\x07'", ⟨0, 2⟩⟩ ∧
      ∀ c ∈ (displayToken false ⟨.word "'\n\x07'", ⟨0, 2⟩⟩).toList, ¬Text.IsControl c := by
  have all : tokens (.ofString "a '\n\x07'") 1 =
      .ok [.ok ⟨.word "a", ⟨0, 0⟩⟩, .ok ⟨.word "'\n\x07'", ⟨0, 2⟩⟩] := by decide +kernel
  have given := gives_of_tokens all (List.mem_cons_of_mem _ List.mem_cons_self)
  obtain ⟨unique, shown⟩ := line_tells_token given
  exact ⟨given, by decide, fun same => absurd (unique _ same) (by decide), shown⟩

end Shell
end Munch
