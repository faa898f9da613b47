import Munch.Lexer.Basic
import Munch.Shell.Token
import Munch.Terminal

/-!
# Shell tokens as lines of text

A token is shown as its position, two blanks, and its kind with its text. Words are escaped, so
that a token always takes one line. Each kind has its own color or weight where the terminal
shows styles.
-/

namespace Munch.Shell

/-- A token kind with its text. -/
def Kind.display (styled : Bool) : Kind → String
  | .operator o => "operator " ++ paint styled .yellow o.lexeme
  | .reserved r => "reserved " ++ paint styled .blue r.lexeme
  | .word text => "word " ++ bold styled (Text.escaped text)
  | .ioNumber text => "io-number " ++ paint styled .magenta text
  | .newline => "newline"

/-- The line of a token. -/
def displayToken (styled : Bool) (t : Token Kind) : String :=
  paint styled .cyan t.pos.label ++ "  " ++ t.kind.display styled

end Munch.Shell
