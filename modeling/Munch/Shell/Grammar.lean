import Munch.Automaton.Builder
import Munch.Lexer.Basic
import Munch.Shell.Token

/-!
# The grammar of shell tokens

Seven rules in order of priority: blanks, newlines, comments, a number directly before a
redirection operator, operators, reserved words, and words. The fourth is skipped as a whole
and taken apart by an inner grammar into the number and the operator. A word is a sequence of
unquoted characters, quoted parts and escapes; a reserved word is found only where no longer
word starts, because the longer match counts.
-/

namespace Munch.Shell

/-- The characters that end an unquoted part of a word. -/
def delimiters : String := " \t\n&|;<>()"

/-- The digits of numbers. -/
def digits : String := "0123456789"

/-- The spellings of the operators that a number may precede. -/
def redirections : List String := (Operator.all.filter (·.isRedirection)).map (·.lexeme)

/-- A number sign and everything up to the end of the line. -/
def comment : Builder :=
  (((Builder.initial.addState true).on 0 '#' 1).reject 1 "\n").otherwise 1 1

/-- Digits directly followed by a redirection operator. -/
def redirection : Builder :=
  redirections.foldl (·.spellAccepting 1 ·)
    (((Builder.initial.addState false).anyOf 0 digits 1).anyOf 1 digits 1)

/-- The moves of a word from a state outside quotes: 1 takes an unquoted character, 2 and 3
open single and double quotes, 5 is an escape. -/
def outsideQuotes (b : Builder) (q : Nat) : Builder :=
  ((((b.reject q delimiters).on q '\'' 2).on q '"' 3).on q '\\' 5).otherwise q 1

/-- Unquoted characters, quoted parts and escapes. Besides the states of `outsideQuotes`,
state 4 is an escape between double quotes. -/
def word : Builder :=
  let states := [true, false, false, false, false].foldl (·.addState ·) Builder.initial
  let unquoted := outsideQuotes (outsideQuotes states 0) 1
  let single := (unquoted.on 2 '\'' 1).otherwise 2 2
  let double := ((single.on 3 '"' 1).on 3 '\\' 4).otherwise 3 3
  (double.otherwise 4 3).otherwise 5 1

/-- Takes a number before a redirection operator apart. -/
def ioGrammar : Except BuildError (Grammar Kind) := do
  let number ← Automaton.oneOrMore digits
  let operator ← Automaton.literals redirections
  return Family.ofList [
    (⟨number, .pass .ioNumber⟩, none),
    (⟨operator, .lookup operatorTable⟩, none)]

/-- The grammar of the shell language. -/
def grammar : Except BuildError (Grammar Kind) := do
  let io ← ioGrammar
  let blanks ← Automaton.oneOrMore " \t"
  let newline ← Automaton.literals ["\n"]
  let comment ← comment.build
  let redirection ← redirection.build
  let operator ← Automaton.literals operatorTable.lexemes
  let reserved ← Automaton.literals reservedTable.lexemes
  let word ← word.build
  return Family.ofList [
    (⟨blanks, .skip⟩, none),
    (⟨newline, .pass fun _ => .newline⟩, none),
    (⟨comment, .skip⟩, none),
    (⟨redirection, .skip⟩, some io),
    (⟨operator, .lookup operatorTable⟩, none),
    (⟨reserved, .lookup reservedTable⟩, none),
    (⟨word, .pass .word⟩, none)]

/-- Every automaton of the grammar can be built. -/
theorem isOk_grammar : grammar.isOk = true := by decide +kernel

/-- A lexer of shell text. -/
def lexer (input : Input) (capacity : Nat) : Except BuildError (Lexer Inline Kind) := do
  let g ← grammar
  return .start g { scanner := .start g.automata input } capacity

/-- All tokens of a shell text, with the error that ends them if there is one. -/
def tokens (input : Input) (capacity : Nat) :
    Except BuildError (List (Except LexError (Token Kind))) := do
  return (← lexer input capacity).drain.1

end Munch.Shell
