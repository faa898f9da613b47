import Munch.Text.Extending
import Munch.Text.Printable

/-!
# Escaped text

Text written so that it can be read back and shown safely. A backslash, a tab, a line feed,
a carriage return and the null character have short escapes; quotes are escaped where they
would end the text; a character that is not printable is written by its code point in
hexadecimal. Marks that extend the character before them are escaped too wherever they would
otherwise attach to a character that is not part of the text.
-/

namespace Munch.Text

/-- Which characters are escaped besides those that always are. -/
structure EscapeStyle where
  single : Bool
  double : Bool
  extending : Bool

/-- Between double quotes only the double quote ends the text. -/
def EscapeStyle.string : EscapeStyle := ⟨false, true, true⟩

/-- Between single quotes only the single quote ends the text. -/
def EscapeStyle.character : EscapeStyle := ⟨true, false, true⟩

/-- The first character of text without quotes around it. -/
def EscapeStyle.leading : EscapeStyle := ⟨true, true, true⟩

/-- Every later character of text without quotes around it: a mark attaches to text. -/
def EscapeStyle.inner : EscapeStyle := ⟨true, true, false⟩

/-- A character named by its code point, in lowercase hexadecimal without padding. -/
def codePoint (c : Char) : List Char :=
  '\\' :: 'u' :: '\x7b' :: Nat.toDigits 16 c.toNat ++ ['\x7d']

/-- One character, escaped in a style. -/
def escapeChar (style : EscapeStyle) (c : Char) : List Char :=
  match c with
  | '\x00' => ['\\', '0']
  | '\t' => ['\\', 't']
  | '\r' => ['\\', 'r']
  | '\n' => ['\\', 'n']
  | '\\' => ['\\', '\\']
  | '"' => if style.double then ['\\', '"'] else ['"']
  | '\'' => if style.single then ['\\', '\''] else ['\'']
  | c => if style.extending && isExtending c || !isPrintable c then codePoint c else [c]

/-- Text as a string literal. -/
def quoted (s : String) : String :=
  String.ofList ('"' :: s.toList.flatMap (escapeChar .string) ++ ['"'])

/-- A character as a character literal. -/
def quotedChar (c : Char) : String :=
  String.ofList ('\'' :: escapeChar .character c ++ ['\''])

/-- The characters of `escaped`. -/
def escapedChars : List Char → List Char
  | [] => []
  | c :: cs => escapeChar .leading c ++ cs.flatMap (escapeChar .inner)

/-- Text with both quotes escaped and nothing around it. -/
def escaped (s : String) : String := String.ofList (escapedChars s.toList)

end Munch.Text
