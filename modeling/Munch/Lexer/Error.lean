import Munch.Frame
import Munch.Text.Duration
import Munch.Text.Escape

/-!
# Lexer errors

Every error ends the stream of tokens, except that a peek beyond the capacity is refused
without any effect. The first two kinds mean that the automata and the classification of a
grammar disagree, which no change of the text can mend.
-/

namespace Munch

/-- Why a lexer gives no token. -/
inductive LexError where
  /-- A matched text is missing from the table that its rule names. -/
  | unknownLexeme (table lexeme : String) (pos : Position)
  /-- No rule belongs to a member of the family at this depth. -/
  | unknownRule (automaton depth : Nat) (pos : Position)
  | scan (error : ScanError)
  | lookaheadOverflow (capacity : Nat)
  /-- The frames broke off before the end of the text. -/
  | disconnected
  | timeout (limit : Duration)
deriving DecidableEq

namespace LexError

/-- The wording of a lexer error. -/
def message : LexError → String
  | unknownLexeme table lexeme pos =>
    pos.describe ++ " - lexeme " ++ Text.quoted lexeme ++ " is missing from the " ++ table ++
      " table."
  | unknownRule automaton depth pos =>
    pos.describe ++ s!" - no rule for automaton {automaton} at depth {depth}."
  | scan e => e.message
  | lookaheadOverflow capacity => s!"lookahead exceeds {capacity} frames."
  | disconnected => "frame source disconnected."
  | timeout limit => "no frame within " ++ limit.text ++ "."

/-- The automata and the classification of the grammar disagree. -/
def isContractViolation : LexError → Bool
  | unknownLexeme .. | unknownRule .. => true
  | _ => false

/-- Where the error happened, if it concerns a place in the text. -/
def pos? : LexError → Option Position
  | unknownLexeme _ _ pos | unknownRule _ _ pos => some pos
  | scan e => some e.pos
  | _ => none

end LexError
end Munch
