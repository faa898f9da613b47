import Munch.Automaton.Basic
import Munch.Family

/-!
# Grammars

A rule joins an automaton with what becomes of the texts it matches: they are skipped, looked
up in a table, or turned into a token kind as they are. A grammar is a family of rules, so a
rule can carry an inner grammar that takes its matches apart once more. The automata of a
grammar alone are a family too, with the same order and nesting; that family drives the
scanner, and the index in a frame finds the rule again.
-/

namespace Munch

/-- A list of lexemes with what they stand for. The first entry of a lexeme counts. -/
structure Table (K : Type) where
  name : String
  entries : List (String × K)

namespace Table
variable {K : Type}

/-- What a lexeme stands for. -/
def get? (t : Table K) (lexeme : String) : Option K := t.entries.lookup lexeme

/-- The lexemes in the order of the entries. -/
def lexemes (t : Table K) : List String := t.entries.map (·.1)

/-- A table summed up by its name and size. -/
def summary (t : Table K) : String :=
  "Table \x7b name: " ++ Text.quoted t.name ++ s!", entries: {t.entries.length}" ++ " \x7d"

end Table

/-- What becomes of a matched text. -/
inductive Action (K : Type) where
  /-- It makes no token. -/
  | skip
  /-- The table says what it stands for; it has to be there. -/
  | lookup (table : Table K)
  /-- The token kind is made from the text. -/
  | pass (kind : String → K)

/-- An action summed up, a table by its name. -/
def Action.summary {K : Type} : Action K → String
  | skip => "Skip"
  | lookup table => "Lookup(" ++ table.name ++ ")"
  | pass _ => "Pass"

/-- An automaton with what becomes of its matches. -/
structure Rule (K : Type) where
  automaton : Automaton
  action : Action K

/-- Rules in order of priority, each with or without an inner grammar. -/
abbrev Grammar (K : Type) := Family (Rule K)

/-- The automata of a grammar, in the same order and nesting. -/
def Grammar.automata {K : Type} (g : Grammar K) : Family Automaton := g.map (·.automaton)

end Munch
