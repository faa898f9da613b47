import Munch.Proofs.Drained
import Munch.Proofs.Pieces
import Munch.Proofs.ShellTables
import Munch.Proofs.Speaking

/-!
# The shell lexer takes a text apart into pieces

Each automaton of the shell grammar recognizes the pieces of its rule. So the scanner finds, at
every place, the piece that leads there, or it passes over a stray character; and the inner pass
over a number with its redirection finds the number and then the operator. Read off these frames,
the tokens of a text are those of the parts that it falls into.

## Main definitions

* `speaks_grammar`: the languages of the grammar are the pieces of its rules.
* `exists_splits`: every text falls into parts.
* `tokens_of_splits`: the tokens of a text are those of its parts.
-/

namespace Munch.Shell

variable {g io : Grammar Kind} {p : Piece} {rest text : List Char} {parts : List Part}

/-- The grammar has an automaton for each rule, built as the rule says. -/
theorem grammar_eq (built : grammar = .ok g) :
    ∃ io blanks newline comment' redirection' operator reserved word', ioGrammar = .ok io ∧
      Automaton.oneOrMore " \t" = .ok blanks ∧ Automaton.literals ["\n"] = .ok newline ∧
      comment.build = .ok comment' ∧ redirection.build = .ok redirection' ∧
      Automaton.literals operatorTable.lexemes = .ok operator ∧
      Automaton.literals reservedTable.lexemes = .ok reserved ∧ word.build = .ok word' ∧
      g = Family.ofList [
        (⟨blanks, .skip⟩, none), (⟨newline, .pass fun _ => .newline⟩, none),
        (⟨comment', .skip⟩, none), (⟨redirection', .skip⟩, some io),
        (⟨operator, .lookup operatorTable⟩, none), (⟨reserved, .lookup reservedTable⟩, none),
        (⟨word', .pass .word⟩, none)] := by
  obtain ⟨io, inner, built⟩ := exists_of_bind_ok built
  obtain ⟨blanks, first, built⟩ := exists_of_bind_ok built
  obtain ⟨newline, second, built⟩ := exists_of_bind_ok built
  obtain ⟨comment', third, built⟩ := exists_of_bind_ok built
  obtain ⟨redirection', fourth, built⟩ := exists_of_bind_ok built
  obtain ⟨operator, fifth, built⟩ := exists_of_bind_ok built
  obtain ⟨reserved, sixth, built⟩ := exists_of_bind_ok built
  obtain ⟨word', seventh, built⟩ := exists_of_bind_ok built
  cases built
  exact ⟨io, blanks, newline, comment', redirection', operator, reserved, word', inner, first,
    second, third, fourth, fifth, sixth, seventh, rfl⟩

/-- The texts that the rule with an index asks for. -/
def Fits (i : Nat) (w : List Char) : Prop := ∃ p : Piece, p.rule = i ∧ p.text = w

theorem fits_blanks {w : List Char} : Fits 0 w ↔ w ≠ [] ∧ ∀ c ∈ w, c = ' ' ∨ c = '\t' := by
  constructor
  · rintro ⟨p, rule, rfl⟩
    cases p with
    | blanks w nonempty blank => exact ⟨nonempty, blank⟩
    | _ => cases rule
  · rintro ⟨nonempty, blank⟩
    exact ⟨.blanks w nonempty blank, rfl, rfl⟩

theorem fits_newline {w : List Char} : Fits 1 w ↔ w = ['\n'] := by
  constructor
  · rintro ⟨p, rule, rfl⟩
    cases p with
    | newline => rfl
    | _ => cases rule
  · rintro rfl
    exact ⟨.newline, rfl, rfl⟩

theorem fits_comment {w : List Char} : Fits 2 w ↔ ∃ cs, w = '#' :: cs ∧ '\n' ∉ cs := by
  constructor
  · rintro ⟨p, rule, rfl⟩
    cases p with
    | comment cs inLine => exact ⟨cs, rfl, inLine⟩
    | _ => cases rule
  · rintro ⟨cs, rfl, inLine⟩
    exact ⟨.comment cs inLine, rfl, rfl⟩

theorem fits_redirection {w : List Char} :
    Fits 3 w ↔ ∃ ds v, IsNumber ds ∧ SpellsRedirection v ∧ w = ds ++ v := by
  constructor
  · rintro ⟨p, rule, rfl⟩
    cases p with
    | redirection ds o isNumber redirects => exact ⟨ds, _, isNumber, ⟨o, redirects, rfl⟩, rfl⟩
    | _ => cases rule
  · rintro ⟨ds, _, isNumber, ⟨o, redirects, rfl⟩, rfl⟩
    exact ⟨.redirection ds o isNumber redirects, rfl, rfl⟩

theorem fits_operator {w : List Char} : Fits 4 w ↔ ∃ o : Operator, w = o.lexeme.toList := by
  constructor
  · rintro ⟨p, rule, rfl⟩
    cases p with
    | operator o => exact ⟨o, rfl⟩
    | _ => cases rule
  · rintro ⟨o, rfl⟩
    exact ⟨.operator o, rfl, rfl⟩

theorem fits_reserved {w : List Char} : Fits 5 w ↔ ∃ r : Reserved, w = r.lexeme.toList := by
  constructor
  · rintro ⟨p, rule, rfl⟩
    cases p with
    | reserved r => exact ⟨r, rfl⟩
    | _ => cases rule
  · rintro ⟨r, rfl⟩
    exact ⟨.reserved r, rfl, rfl⟩

theorem fits_word {w : List Char} : Fits 6 w ↔ IsWord w := by
  constructor
  · rintro ⟨p, rule, rfl⟩
    cases p with
    | word w isWord => exact isWord
    | _ => cases rule
  · exact fun isWord => ⟨.word w isWord, rfl, rfl⟩

theorem ofList_eq_iff {w : List Char} {s : String} : String.ofList w = s ↔ w = s.toList := by
  rw [← String.toList_inj, String.toList_ofList]

theorem ofList_mem_operators {w : List Char} :
    String.ofList w ∈ operatorTable.lexemes ↔ ∃ o : Operator, w = o.lexeme.toList := by
  simp [Table.lexemes, operatorTable, Operator.mem_all, ← ofList_eq_iff, eq_comm]

theorem ofList_mem_reserved {w : List Char} :
    String.ofList w ∈ reservedTable.lexemes ↔ ∃ r : Reserved, w = r.lexeme.toList := by
  simp [Table.lexemes, reservedTable, Reserved.mem_all, ← ofList_eq_iff, eq_comm]

theorem ofList_mem_redirections {w : List Char} :
    String.ofList w ∈ redirections ↔ SpellsRedirection w := by
  simp only [redirections, List.mem_map, List.mem_filter, Operator.mem_all, true_and,
    SpellsRedirection, ← ofList_eq_iff]
  exact exists_congr fun o => and_congr_right fun _ => eq_comm

theorem speaks_grammar (built : grammar = .ok g) : g.automata.Speaks Fits := by
  obtain ⟨io, blanks, newline, comment', redirection', operator, reserved, word', -, first, second,
    third, fourth, fifth, sixth, seventh, rfl⟩ := grammar_eq built
  constructor
  · intro i a member
    simp only [Grammar.automata, Family.members_map] at member
    -- The rules in the order of the grammar; there are no others.
    rcases i with _ | _ | _ | _ | _ | _ | _ | i <;> cases member
    · exact (Automaton.recognizes_oneOrMore first).congr fun w => by simp [fits_blanks]
    · exact (Automaton.recognizes_literals second).congr fun w => by
        rw [List.mem_singleton, ofList_eq_iff, fits_newline]
        rfl
    · exact (recognizes_comment third).congr fun w => fits_comment.symm
    · exact (recognizes_redirection fourth).congr fun w => fits_redirection.symm
    · exact (Automaton.recognizes_literals fifth).congr fun w =>
        ofList_mem_operators.trans fits_operator.symm
    · exact (Automaton.recognizes_literals sixth).congr fun w =>
        ofList_mem_reserved.trans fits_reserved.symm
    · exact (recognizes_word seventh).congr fun w => fits_word.symm
  · rintro _ w ⟨p, rfl, -⟩
    cases p <;> simp [Piece.rule, Grammar.automata, Family.ofList, Family.members]

/-- The texts of the inner grammar's rules. -/
def FitsInside : Nat → List Char → Prop
  | 0, w => IsNumber w
  | 1, w => SpellsRedirection w
  | _, _ => False

theorem speaks_ioGrammar (built : ioGrammar = .ok io) : io.automata.Speaks FitsInside := by
  obtain ⟨number, first, built⟩ := exists_of_bind_ok built
  obtain ⟨operator, second, built⟩ := exists_of_bind_ok built
  cases built
  constructor
  · intro i a member
    simp only [Grammar.automata, Family.members_map] at member
    rcases i with _ | _ | i <;> cases member
    · exact Automaton.recognizes_oneOrMore first
    · exact (Automaton.recognizes_literals second).congr fun w => ofList_mem_redirections
  · intro i w fits
    rcases i with _ | _ | i
    · simp [Grammar.automata, Family.ofList, Family.members]
    · simp [Grammar.automata, Family.ofList, Family.members]
    · exact fits.elim

/-! ## Frames -/

/-- A piece at the beginning of the text is what is offered there. -/
theorem offers_iff (speaks : g.automata.Speaks Fits) {fresh final : Bool} {c : Candidate} :
    g.automata.Offers fresh final text c ↔
      ∃ q : Piece, q.text <+: text ∧ c = ⟨q.rule, q.text.length⟩ := by
  rw [speaks.offers_iff]
  constructor
  · rintro ⟨_, -, fits, ⟨q, rule, rfl⟩, length⟩
    exact ⟨q, fits, by rw [rule, ← length]⟩
  · rintro ⟨q, fits, rfl⟩
    exact ⟨q.text, List.ne_nil_of_length_pos q.length_pos, fits, ⟨q, rfl, rfl⟩, rfl⟩

/-- The piece that leads is the preferred offer. -/
theorem Piece.Leads.prefers (speaks : g.automata.Speaks Fits) (h : p.Leads text) (fresh : Bool) :
    g.automata.Prefers fresh true text ⟨p.rule, p.text.length⟩ := by
  constructor
  · exact (offers_iff speaks).2 ⟨p, h.fits, rfl⟩
  · intro d offered
    obtain ⟨q, fits, rfl⟩ := (offers_iff speaks).1 offered
    exact Candidate.eq_or_beats_iff.2 (h.best q fits)

/-- Where nothing is offered no piece begins. -/
theorem silence_iff (speaks : g.automata.Speaks Fits) {fresh : Bool} :
    (∀ d, ¬g.automata.Offers fresh true text d) ↔ ∀ q : Piece, ¬q.text <+: text := by
  constructor
  · exact fun silence q fits => silence _ ((offers_iff speaks).2 ⟨q, fits, rfl⟩)
  · intro silence d offered
    obtain ⟨q, fits, -⟩ := (offers_iff speaks).1 offered
    exact silence q fits

/-- Every text falls into parts. -/
theorem exists_splits (text : List Char) : ∃ parts, Splits text parts := by
  obtain ⟨g, built⟩ := exists_grammar
  have speaks := speaks_grammar built
  generalize hn : text.length = n
  induction n using Nat.strongRecOn generalizing text with
  | ind n ih =>
    cases text with
    | nil => exact ⟨[], .done⟩
    | cons c rest =>
      by_cases silence : ∀ d, ¬g.automata.Offers true true (c :: rest) d
      · obtain ⟨parts, splits⟩ := ih rest.length (by rw [← hn]; exact Nat.lt_succ_self _) rest rfl
        exact ⟨_, .stray ((silence_iff speaks).1 silence) splits⟩
      · obtain ⟨c, offered⟩ := not_forall_not.1 silence
        obtain ⟨d, prefers⟩ := offered.exists_prefers
        obtain ⟨p, ⟨rest, same⟩, rfl⟩ := (offers_iff speaks).1 prefers.offers
        rw [← same] at prefers hn ⊢
        have := p.length_pos
        rw [List.length_append] at hn
        obtain ⟨parts, splits⟩ := ih rest.length (by omega) rest rfl
        refine ⟨_, .piece ⟨List.prefix_append _ _, fun q fits => ?_⟩ splits⟩
        exact Candidate.eq_or_beats_iff.1 (prefers.beats _ ((offers_iff speaks).2 ⟨q, fits, rfl⟩))

/-- No inner grammar is inside the inner one. -/
theorem inner?_ioGrammar (built : ioGrammar = .ok io) (i : Nat) : io.automata.inner? i = none := by
  obtain ⟨number, -, built⟩ := exists_of_bind_ok built
  obtain ⟨operator, -, built⟩ := exists_of_bind_ok built
  cases built
  rw [Grammar.automata, Family.inner?, Family.get?_map, Family.get?_ofList]
  rcases i with _ | _ | i <;> rfl

/-- The inner pass finds the number and then the operator. -/
theorem frames_of_redirection (built : ioGrammar = .ok io) {number : List Char}
    {op : Operator} (isNumber : IsNumber number) (redirects : op.isRedirection = true)
    (pos : Position) : (Pass.ofText io.automata true (number ++ op.lexeme.toList) pos).frames 1 =
      (Piece.redirection number op isNumber redirects).inner pos := by
  have speaks := speaks_ioGrammar built
  have spells : SpellsRedirection op.lexeme.toList := ⟨op, redirects, rfl⟩
  obtain ⟨c, v, lexeme, delimiter, other⟩ := spells.opens
  have first : io.automata.Prefers true true (number ++ op.lexeme.toList) ⟨0, number.length⟩ := by
    constructor
    · exact speaks.offers_iff.2 ⟨number, isNumber.1, List.prefix_append _ _, isNumber, rfl⟩
    · intro ⟨i, n⟩ offered
      obtain ⟨w, nonempty, starts, fits, length⟩ := speaks.offers_iff.1 offered
      rw [Candidate.eq_or_beats_iff, length]
      match i with
      | 0 =>
        rw [lexeme] at starts
        have := IsWord.length_le (IsNumber.isWord fits) starts isNumber.isWord delimiter
        dsimp only
        omega
      | 1 =>
        obtain ⟨d, u, rfl, -, other⟩ := SpellsRedirection.opens fits
        obtain ⟨e, ds, rfl⟩ := List.exists_cons_of_ne_nil isNumber.1
        obtain ⟨rfl, -⟩ := List.cons_prefix_cons.1 starts
        exact absurd (isNumber.2 d List.mem_cons_self) other
  have second : io.automata.Prefers false true (op.lexeme.toList ++ [])
      ⟨1, op.lexeme.toList.length⟩ := by
    constructor
    · exact speaks.offers_iff.2 ⟨_, by simp [lexeme], List.prefix_append _ _, spells, rfl⟩
    · intro ⟨i, n⟩ offered
      obtain ⟨w, nonempty, starts, fits, length⟩ := speaks.offers_iff.1 offered
      rw [Candidate.eq_or_beats_iff, length]
      rw [List.append_nil] at starts
      match i with
      | 0 =>
        obtain ⟨e, ds, rfl⟩ := List.exists_cons_of_ne_nil nonempty
        rw [lexeme] at starts
        obtain ⟨rfl, -⟩ := List.cons_prefix_cons.1 starts
        exact absurd (fits.2 e List.mem_cons_self) other
      | 1 =>
        have := starts.length_le
        dsimp only
        omega
  have plain (m : Match) := Family.inside_of_none (inner?_ioGrammar built m.index) 2
  have behind := Pass.frames_of_prefers second (pos.visitAll number) 1
  rw [plain, Pass.frames_of_end, List.append_nil] at behind
  rw [Pass.frames_of_prefers first, plain, behind]
  simp [Piece.inner]

/-- What becomes of the match of a piece. -/
def Piece.action : Piece → Action Kind
  | blanks .. | comment .. | redirection .. => .skip
  | newline => .pass fun _ => .newline
  | operator _ => .lookup operatorTable
  | reserved _ => .lookup reservedTable
  | word .. => .pass .word

/-- The inner grammar of the rule of a piece. -/
def Piece.inner? (io : Grammar Kind) : Piece → Option (Grammar Kind)
  | redirection .. => some io
  | _ => none

/-- The rule of a piece is in the grammar. -/
theorem exists_rule (built : grammar = .ok g) : ∃ io, ioGrammar = .ok io ∧
    ∀ p : Piece, ∃ a, g.get? p.rule = some (⟨a, p.action⟩, p.inner? io) := by
  obtain ⟨io, blanks, newline, comment', redirection', operator, reserved, word', inner, -, -, -,
    -, -, -, -, rfl⟩ := grammar_eq built
  refine ⟨io, inner, fun p => ?_⟩
  cases p <;> exact ⟨_, rfl⟩

/-- The frames of the inner pass over a piece, if there is one. -/
theorem inside_piece (built : grammar = .ok g) (p : Piece) (pos : Position) :
    g.automata.inside ⟨p.rule, p.text, pos⟩ 1 = p.inner pos := by
  obtain ⟨io, inner, rules⟩ := exists_rule built
  obtain ⟨a, rule⟩ := rules p
  have own : g.automata.inner? p.rule = (p.inner? io).map Grammar.automata := by
    rw [Grammar.automata, Family.inner?, Family.get?_map, rule]
    rfl
  cases p with
  | redirection number op isNumber redirects =>
    rw [Family.inside_of_some own, Family.listing_eq_frames]
    exact frames_of_redirection inner isNumber redirects pos
  | _ => exact Family.inside_of_none own 1

/-- The frames of a text are those of its parts. -/
theorem frames_of_splits (built : grammar = .ok g) (splits : Splits text parts) (fresh : Bool)
    (pos : Position) :
    (Pass.ofText g.automata fresh text pos).frames 0 = framesOf pos parts := by
  have speaks := speaks_grammar built
  induction splits generalizing fresh pos with
  | done => exact Pass.frames_of_end g.automata fresh pos 0
  | @piece p rest parts leads _ ih =>
    rw [Pass.frames_of_prefers (leads.prefers speaks fresh), inside_piece built, ih]
    rfl
  | @stray c rest parts silence _ ih =>
    rw [Pass.frames_of_silence ((silence_iff speaks).2 silence), ih]
    rfl

/-! ## Tokens -/

theorem get?_operatorTable (o : Operator) : operatorTable.get? o.lexeme = some (.operator o) := by
  cases o <;> decide

theorem get?_reservedTable (r : Reserved) : reservedTable.get? r.lexeme = some (.reserved r) := by
  cases r <;> decide

/-- The entries of the frames of a piece, under the inner grammar for the inner frames. -/
def Piece.entries (pos : Position) (p : Piece) : List (Entry Kind) :=
  ⟨⟨some p.rule, String.ofList p.text, pos, 0⟩, some p.action⟩ ::
    match p with
    | redirection number op .. => [
        ⟨⟨some 0, String.ofList number, pos, 1⟩, some (.pass .ioNumber)⟩,
        ⟨⟨some 1, op.lexeme, pos.visitAll number, 1⟩, some (.lookup operatorTable)⟩,
        ⟨.ending (pos.visitAll (number ++ op.lexeme.toList)) 1, none⟩]
    | _ => []

/-- The rules of the frames of a piece are known, and behind them only the outer grammar is open. -/
theorem entries?_piece (built : grammar = .ok g) (p : Piece) (pos : Position) (rest : List Frame) :
    Lexer.entries? [g] ((Part.piece p).frames pos ++ rest) =
      (Lexer.entries? [g] rest).map (p.entries pos ++ ·) := by
  obtain ⟨io, inner, rules⟩ := exists_rule built
  obtain ⟨a, rule⟩ := rules p
  have outer : Lexer.resolve? [g] ⟨some p.rule, String.ofList p.text, pos, 0⟩ =
      some (some p.action, g :: (p.inner? io).toList) := by
    simp [Lexer.resolve?, rule]
  rw [Part.frames, List.cons_append, Lexer.entries?, outer]
  cases p with
  | redirection number op isNumber redirects =>
    obtain ⟨number', -, inner⟩ := exists_of_bind_ok inner
    obtain ⟨operator', -, inner⟩ := exists_of_bind_ok inner
    cases inner
    cases ruled : Lexer.entries? [g] rest <;>
      simp [Piece.inner?, Piece.inner, Piece.entries, Lexer.entries?, Lexer.resolve?,
        Frame.ending, ruled]
  | _ => cases ruled : Lexer.entries? [g] rest <;>
      simp [Piece.inner?, Piece.inner, Piece.entries, ruled]

theorem result?_of_lookup {table : Table Kind} {kind : Kind} {f : Frame}
    (known : table.get? f.text = some kind) :
    (Entry.mk f (some (.lookup table))).result? = some (.ok ⟨kind, f.pos⟩) := by
  simp [Entry.result?, known]

/-- The entries of a piece give its tokens. -/
theorem reading_piece (p : Piece) (pos : Position) (es : List (Entry Kind)) :
    Lexer.reading (p.entries pos ++ es) = (placed pos p.kinds).map .ok ++ Lexer.reading es := by
  cases p with
  | blanks | comment => exact Lexer.reading_of_none rfl
  | newline | word => exact Lexer.reading_of_token rfl
  | operator o =>
    apply Lexer.reading_of_token
    apply result?_of_lookup
    rw [Piece.text, String.ofList_toList, get?_operatorTable]
  | reserved r =>
    apply Lexer.reading_of_token
    apply result?_of_lookup
    rw [Piece.text, String.ofList_toList, get?_reservedTable]
  | redirection number op isNumber redirects =>
    have whole (f : Frame) : (Entry.mk f (some (.skip : Action Kind))).result? = none := rfl
    have ending (f : Frame) : (Entry.mk f (none : Option (Action Kind))).result? = none := rfl
    have first (f : Frame) : (Entry.mk f (some (.pass Kind.ioNumber))).result? =
        some (.ok ⟨.ioNumber f.text, f.pos⟩) := rfl
    have second : (Entry.mk ⟨some 1, op.lexeme, pos.visitAll number, 1⟩
        (some (.lookup operatorTable))).result? = some (.ok ⟨.operator op, pos.visitAll number⟩) :=
      result?_of_lookup (get?_operatorTable op)
    simp only [Piece.entries, Piece.action, List.cons_append, List.nil_append]
    rw [Lexer.reading_of_none (whole _), Lexer.reading_of_token (first _),
      Lexer.reading_of_token second, Lexer.reading_of_none (ending _)]
    simp [Piece.kinds, Kind.lexeme, placed]

/-- The rules of the frames of parts are known, and give the tokens of the parts. -/
theorem reading_of_parts (built : grammar = .ok g) (parts : List Part) (pos : Position) :
    ∃ es, Lexer.entries? [g] (framesOf pos parts) = some es ∧
      Lexer.reading es = (tokensOf pos parts).map .ok := by
  induction parts generalizing pos with
  | nil => exact ⟨[⟨.ending pos 0, none⟩], rfl, rfl⟩
  | cons part parts ih =>
    obtain ⟨es, ruled, reading⟩ := ih (pos.visitAll part.text)
    cases part with
    | stray c => exact ⟨es, ruled, reading⟩
    | piece p =>
      refine ⟨p.entries pos ++ es, ?_, ?_⟩
      · rw [framesOf, entries?_piece built]
        exact congrArg _ ruled
      · rw [tokensOf, List.map_append, ← reading]
        exact reading_piece p pos es

/-- The scanner of a text hands out the frames of its parts. -/
theorem results_of_splits (built : grammar = .ok g) {text : String}
    (splits : Splits text.toList parts) :
    (Scanner.start g.automata (.ofString text)).results = (framesOf {} parts).map .ok := by
  rw [Scanner.results_eq_pending (Scanner.sound_start _ _) rfl, Scanner.pending_start,
    Family.listing_eq_frames]
  exact congrArg _ (frames_of_splits built splits true {})

/-- The tokens of a text are those of its parts. -/
theorem tokens_of_splits {text : String} {capacity : Nat} (room : 1 ≤ capacity)
    (splits : Splits text.toList parts) :
    tokens (.ofString text) capacity = .ok ((tokensOf {} parts).map .ok) := by
  obtain ⟨g, built⟩ := exists_grammar
  obtain ⟨es, ruled, reading⟩ := reading_of_parts built parts {}
  rw [← frames_of_splits built splits true] at ruled
  rw [tokens_eq (lexer_eq built _ capacity), ← reading]
  refine congrArg _ (Lexer.drain_of_text (covered_grammar built) text room ?_)
  rwa [Family.listing_eq_frames]

end Munch.Shell
