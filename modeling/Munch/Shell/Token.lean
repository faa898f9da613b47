import Munch.Grammar

/-!
# Tokens of the shell language

The operators and reserved words of the shell, each with its one spelling, and the token kinds
that carry them. A word keeps its quotes and escapes as they stand in the text, so every kind
knows the text it was made from.
-/

namespace Munch.Shell

/-- The control and redirection operators. -/
inductive Operator where
  | andIf | orIf | dSemi
  | dLess | dLessDash | lessAnd | lessGreat | dGreat | greatAnd | clobber
  | amp | pipe | semi | less | great | lParen | rParen
deriving DecidableEq

namespace Operator

/-- The operators in the order of their table. -/
def all : List Operator :=
  [andIf, orIf, dSemi, dLess, dLessDash, lessAnd, lessGreat, dGreat, greatAnd, clobber, amp,
    pipe, semi, less, great, lParen, rParen]

theorem mem_all (o : Operator) : o ∈ all := by cases o <;> decide

/-- The spelling of an operator. -/
def lexeme : Operator → String
  | andIf => "&&"
  | orIf => "||"
  | dSemi => ";;"
  | dLess => "<<"
  | dLessDash => "<<-"
  | lessAnd => "<&"
  | lessGreat => "<>"
  | dGreat => ">>"
  | greatAnd => ">&"
  | clobber => ">|"
  | amp => "&"
  | pipe => "|"
  | semi => ";"
  | less => "<"
  | great => ">"
  | lParen => "("
  | rParen => ")"

/-- The name of an operator in structured output. -/
def name : Operator → String
  | andIf => "AndIf"
  | orIf => "OrIf"
  | dSemi => "DSemi"
  | dLess => "DLess"
  | dLessDash => "DLessDash"
  | lessAnd => "LessAnd"
  | lessGreat => "LessGreat"
  | dGreat => "DGreat"
  | greatAnd => "GreatAnd"
  | clobber => "Clobber"
  | amp => "Amp"
  | pipe => "Pipe"
  | semi => "Semi"
  | less => "Less"
  | great => "Great"
  | lParen => "LParen"
  | rParen => "RParen"

/-- The operator redirects a file descriptor, whose number may precede it. -/
def isRedirection : Operator → Bool
  | less | great | dLess | dGreat | lessAnd | greatAnd | lessGreat | dLessDash | clobber => true
  | _ => false

end Operator

/-- The words that are reserved where they stand as a whole word. -/
inductive Reserved where
  | ifWord | thenWord | elseWord | elifWord | fiWord | doWord | doneWord | caseWord | esacWord
  | whileWord | untilWord | forWord | lBrace | rBrace | bang | inWord
deriving DecidableEq

namespace Reserved

/-- The reserved words in the order of their table. -/
def all : List Reserved :=
  [ifWord, thenWord, elseWord, elifWord, fiWord, doWord, doneWord, caseWord, esacWord, whileWord,
    untilWord, forWord, lBrace, rBrace, bang, inWord]

theorem mem_all (r : Reserved) : r ∈ all := by cases r <;> decide

/-- The spelling of a reserved word. -/
def lexeme : Reserved → String
  | ifWord => "if"
  | thenWord => "then"
  | elseWord => "else"
  | elifWord => "elif"
  | fiWord => "fi"
  | doWord => "do"
  | doneWord => "done"
  | caseWord => "case"
  | esacWord => "esac"
  | whileWord => "while"
  | untilWord => "until"
  | forWord => "for"
  | lBrace => "\x7b"
  | rBrace => "\x7d"
  | bang => "!"
  | inWord => "in"

/-- The name of a reserved word in structured output. -/
def name : Reserved → String
  | ifWord => "If"
  | thenWord => "Then"
  | elseWord => "Else"
  | elifWord => "Elif"
  | fiWord => "Fi"
  | doWord => "Do"
  | doneWord => "Done"
  | caseWord => "Case"
  | esacWord => "Esac"
  | whileWord => "While"
  | untilWord => "Until"
  | forWord => "For"
  | lBrace => "Lbrace"
  | rBrace => "Rbrace"
  | bang => "Bang"
  | inWord => "In"

end Reserved

/-- What a token of the shell language is. -/
inductive Kind where
  | operator (op : Operator)
  | reserved (word : Reserved)
  /-- A word as it stands in the text. -/
  | word (text : String)
  /-- The number of a file descriptor, directly before a redirection operator. -/
  | ioNumber (text : String)
  | newline
deriving DecidableEq

namespace Kind

/-- The text of a token. -/
def lexeme : Kind → String
  | operator o => o.lexeme
  | reserved r => r.lexeme
  | word text | ioNumber text => text
  | newline => "\n"

end Kind

/-- What each operator's spelling stands for. -/
def operatorTable : Table Kind where
  name := "operator"
  entries := Operator.all.map fun o => (o.lexeme, .operator o)

/-- What each reserved word's spelling stands for. -/
def reservedTable : Table Kind where
  name := "reserved word"
  entries := Reserved.all.map fun r => (r.lexeme, .reserved r)

end Munch.Shell
