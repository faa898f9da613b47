import Munch.Proofs.Coverage
import Munch.Proofs.Reader
import Munch.Shell.Grammar

/-!
# The shell grammar agrees with its tables

Three rules of the shell grammar look up their matches: the operators, the reserved words, and,
inside a number with a redirection, the operator of the redirection. Each automaton is made of
literals of the table that is asked, so all rules are covered and the lexer of a shell text can
fail in no other way than by reading.

## Main definitions

* `Shell.covered_grammar`: no lookup of the shell grammar misses.
* `Shell.fails_only_by_reads`: all that the lexer of a shell text gives.
-/

namespace Munch.Shell

/-- The spellings before which a number may stand are spellings of operators. -/
theorem redirections_subset : redirections ⊆ operatorTable.lexemes := by
  have all : operatorTable.lexemes = Operator.all.map (·.lexeme) := by
    simp [Table.lexemes, operatorTable]
  rw [all]
  exact List.map_subset _ (List.filter_subset_self _)

theorem covered_ioGrammar {g : Grammar Kind} (built : ioGrammar = .ok g) : g.Covered := by
  obtain ⟨number, -, built⟩ := exists_of_bind_ok built
  obtain ⟨operator, literals, built⟩ := exists_of_bind_ok built
  cases built
  exact ⟨nofun, Rule.covered_literals literals redirections_subset, trivial⟩

theorem covered_grammar {g : Grammar Kind} (built : grammar = .ok g) : g.Covered := by
  obtain ⟨io, inner, built⟩ := exists_of_bind_ok built
  obtain ⟨blanks, -, built⟩ := exists_of_bind_ok built
  obtain ⟨newline, -, built⟩ := exists_of_bind_ok built
  obtain ⟨comment, -, built⟩ := exists_of_bind_ok built
  obtain ⟨redirection, -, built⟩ := exists_of_bind_ok built
  obtain ⟨operator, operators, built⟩ := exists_of_bind_ok built
  obtain ⟨reserved, words, built⟩ := exists_of_bind_ok built
  obtain ⟨word, -, built⟩ := exists_of_bind_ok built
  cases built
  have skipped (a : Automaton) : Rule.Covered (⟨a, .skip⟩ : Rule Kind) := nofun
  have passed (a : Automaton) (kind : String → Kind) : Rule.Covered ⟨a, .pass kind⟩ := nofun
  exact ⟨skipped _, passed _ _, skipped _, skipped _, covered_ioGrammar inner,
    Rule.covered_literals operators (List.Subset.refl _),
    Rule.covered_literals words (List.Subset.refl _), passed _ _, trivial⟩

theorem exists_grammar : ∃ g, grammar = .ok g := exists_of_isOk isOk_grammar

theorem lexer_eq {g : Grammar Kind} (built : grammar = .ok g) (input : Input) (capacity : Nat) :
    lexer input capacity = .ok (.start g ⟨Scanner.start g.automata input, false⟩ capacity) := by
  rw [lexer, built]
  rfl

theorem tokens_eq {input : Input} {capacity : Nat} {l : Lexer Inline Kind}
    (made : lexer input capacity = .ok l) : tokens input capacity = .ok l.drain.1 := by
  rw [tokens, made]
  rfl

/-- The shell grammar can be built. If there is room for a single frame, its lexer gives nothing but
tokens over every input, and behind them the failure of the input if it has one; then nothing
follows. A text has no failure. The input of a reader, whatever its chunks, fails just as the first
read that brings no character, and over chunks of bytes that is just where these are not UTF-8. -/
theorem fails_only_by_reads (capacity : Nat) (room : 1 ≤ capacity) :
    (∃ g, grammar = .ok g) ∧
    (∀ input, ∃ first, lexer input capacity = .ok first ∧
      tokens input capacity = .ok first.drain.1 ∧
      Lexer.FailsOnlyBy input.failure first.drain.1 ∧ first.drain.2.lex.1 = none) ∧
    (∀ text, ∃ ts : List (Token Kind), tokens (.ofString text) capacity = .ok (ts.map .ok)) ∧
    (∀ r : Reader, r.replies (r.toInput.rest.length + 1) =
      Reader.brought r.toInput.rest ++ [Reader.lastReply r.toInput.failure]) ∧
    ∀ chunks : List (List UInt8), (∀ chunk ∈ chunks, chunk ≠ []) →
      let input := Reader.toInput { chunks := chunks.map .bytes }
      (input.failure = none ↔ ∃ cs, Utf8.encode cs = chunks.flatten) ∧
        ∀ e, input.failure = some e → e = Reader.invalid := by
  obtain ⟨g, built⟩ := exists_grammar
  have drains (input : Input) : ∃ first, lexer input capacity = .ok first ∧
      tokens input capacity = .ok first.drain.1 ∧
      Lexer.FailsOnlyBy input.failure first.drain.1 ∧ first.drain.2.lex.1 = none := by
    have made := lexer_eq built input capacity
    obtain ⟨fails, finished⟩ := Lexer.drain_of_covered (covered_grammar built) input room
    exact ⟨_, made, tokens_eq made, fails, by rw [Lexer.lex_of_result finished.turn]⟩
  refine ⟨⟨g, built⟩, drains, fun text => ?_, Reader.replies_toInput,
    fun chunks => Reader.failure_toInput_chunks⟩
  obtain ⟨first, -, all, ⟨ts, only⟩, -⟩ := drains (.ofString text)
  exact ⟨ts, all.trans (congrArg _ only)⟩

/-- The stream is cut inside a number with its redirection, and a byte that begins no character
breaks off a word. -/
theorem fails_only_by_reads_of_cut_stream :
    let chunks : List (List UInt8) := [[0x32], [0x3E, 0x78, 0xFF]]
    let r : Reader := { chunks := chunks.map .bytes }
    (¬∃ cs, Utf8.encode cs = chunks.flatten) ∧
      r.replies 4 = [.ok (some '2'), .ok (some '>'), .ok (some 'x'), .error Reader.invalid] ∧
      ∃ (ts : List (Token Kind)) (pos : Position),
        tokens r.toInput 1 = .ok (ts.map .ok ++ [.error (.scan ⟨Reader.invalid, pos⟩)]) := by
  intro chunks r
  have rest : r.toInput.rest = ['2', '>', 'x'] := by decide +kernel
  have failure : r.toInput.failure = some Reader.invalid := by decide +kernel
  obtain ⟨-, drains, -, reads, bytes⟩ := fails_only_by_reads 1 (Nat.le_refl 1)
  have undecodable := (bytes chunks (by decide)).1
  have replies := reads r
  obtain ⟨first, -, all, ⟨ts, only⟩, -⟩ := drains r.toInput
  rw [rest, failure] at replies
  rw [failure] at only
  obtain ⟨pos, only⟩ := only
  refine ⟨fun text => ?_, replies, ts, pos, all.trans (congrArg _ only)⟩
  have none := undecodable.2 text
  rw [failure] at none
  cases none

/-- The number and the operator come before the failure. -/
example : tokens (Reader.toInput { chunks := [.bytes [0x32], .bytes [0x3E, 0x78, 0xFF]] }) 1 =
    .ok [.ok ⟨.ioNumber "2", ⟨0, 0⟩⟩, .ok ⟨.operator .great, ⟨0, 1⟩⟩,
      .error (.scan ⟨Reader.invalid, ⟨0, 2⟩⟩)] := by decide +kernel

end Munch.Shell
