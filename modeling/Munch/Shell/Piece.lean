import Munch.Frame
import Munch.Lexer.Basic
import Munch.Shell.Token
import Munch.Shell.Word

/-!
# Shell text in pieces

How a shell text falls into pieces, said without automata and without a scanner. Each rule of the
grammar takes one form of piece. At every place the longest piece is taken, of equally long ones
that of the first rule; a character with which no piece begins is a stray one and left out. The
pieces then say what tokens there are: none for blanks and comments, two for a number before a
redirection operator, one for every other piece.

## Main definitions

* `Piece`: a text in the form of one of the rules.
* `Piece.Leads`: the piece that is taken at the beginning of a text.
* `Splits`: how a text falls into pieces and stray characters.
* `tokensOf`, `framesOf`: the tokens of these parts, and the frames that they come from.
-/

namespace Munch.Shell

/-- A text in the form that a rule asks for. -/
inductive Piece where
  | blanks (text : List Char) (nonempty : text ≠ []) (blank : ∀ c ∈ text, c = ' ' ∨ c = '\t')
  | newline
  /-- What follows the number sign. -/
  | comment (text : List Char) (inLine : '\n' ∉ text)
  | redirection (number : List Char) (op : Operator) (isNumber : IsNumber number)
    (redirects : op.isRedirection = true)
  | operator (op : Operator)
  | reserved (r : Reserved)
  | word (text : List Char) (isWord : IsWord text)

namespace Piece

/-- The index of the rule. -/
def rule : Piece → Nat
  | blanks .. => 0
  | newline => 1
  | comment .. => 2
  | redirection .. => 3
  | operator _ => 4
  | reserved _ => 5
  | word .. => 6

/-- The characters of a piece. -/
def text : Piece → List Char
  | blanks text .. => text
  | newline => ['\n']
  | comment text _ => '#' :: text
  | redirection number op .. => number ++ op.lexeme.toList
  | operator op => op.lexeme.toList
  | reserved r => r.lexeme.toList
  | word text _ => text

/-- The kinds of the tokens that a piece makes. -/
def kinds : Piece → List Kind
  | blanks .. | comment .. => []
  | newline => [.newline]
  | redirection number op .. => [.ioNumber (String.ofList number), .operator op]
  | operator op => [.operator op]
  | reserved r => [.reserved r]
  | word text _ => [.word (String.ofList text)]

/-- The frames of the inner pass over a piece. -/
def inner (pos : Position) : Piece → List Frame
  | redirection number op .. => [⟨some 0, String.ofList number, pos, 1⟩,
      ⟨some 1, op.lexeme, pos.visitAll number, 1⟩,
      .ending (pos.visitAll (number ++ op.lexeme.toList)) 1]
  | _ => []

/-- The piece is at the beginning of the text, and every other one there is shorter, or as long and
not of an earlier rule. -/
structure Leads (p : Piece) (text : List Char) : Prop where
  fits : p.text <+: text
  best : ∀ q : Piece, q.text <+: text →
    q.text.length < p.text.length ∨ q.text.length = p.text.length ∧ p.rule ≤ q.rule

end Piece

/-- A piece, or a character with which no piece begins. -/
inductive Part where
  | piece (p : Piece)
  | stray (c : Char)

namespace Part

/-- The characters of a part. -/
def text : Part → List Char
  | piece p => p.text
  | stray c => [c]

/-- The kinds of the tokens that a part makes. -/
def kinds : Part → List Kind
  | piece p => p.kinds
  | stray _ => []

/-- The frames of a part. -/
def frames (pos : Position) : Part → List Frame
  | piece p => ⟨some p.rule, String.ofList p.text, pos, 0⟩ :: p.inner pos
  | stray _ => []

end Part

/-- A text falls into parts. -/
inductive Splits : List Char → List Part → Prop where
  | done : Splits [] []
  | piece {p : Piece} {rest : List Char} {parts : List Part} : p.Leads (p.text ++ rest) →
    Splits rest parts → Splits (p.text ++ rest) (.piece p :: parts)
  | stray {c : Char} {rest : List Char} {parts : List Part} :
    (∀ p : Piece, ¬p.text <+: c :: rest) → Splits rest parts →
    Splits (c :: rest) (.stray c :: parts)

/-- Tokens whose texts follow one another from a position on. -/
def placed (pos : Position) : List Kind → List (Token Kind)
  | [] => []
  | kind :: kinds => ⟨kind, pos⟩ :: placed (pos.visitAll kind.lexeme.toList) kinds

/-- The tokens of parts that follow one another. -/
def tokensOf (pos : Position) : List Part → List (Token Kind)
  | [] => []
  | part :: parts => placed pos part.kinds ++ tokensOf (pos.visitAll part.text) parts

/-- The frames of parts that follow one another, up to the sentinel. -/
def framesOf (pos : Position) : List Part → List Frame
  | [] => [.ending pos 0]
  | part :: parts => part.frames pos ++ framesOf (pos.visitAll part.text) parts

end Munch.Shell
