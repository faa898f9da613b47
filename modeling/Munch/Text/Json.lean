/-!
# JSON text

Values written compactly, each as the text that stands for it. A string escapes the quote, the
backslash and the control characters below the blank; everything else stands for itself.
-/

namespace Munch.Text.Json

/-- A control character by its number, in four hexadecimal digits. -/
def control (c : Char) : List Char :=
  '\\' :: 'u' :: '0' :: '0' ::
    [Nat.digitChar (c.toNat / 16), Nat.digitChar (c.toNat % 16)]

/-- One character inside a string. -/
def escapeChar (c : Char) : List Char :=
  match c with
  | '"' => ['\\', '"']
  | '\\' => ['\\', '\\']
  | '\x08' => ['\\', 'b']
  | '\t' => ['\\', 't']
  | '\n' => ['\\', 'n']
  | '\x0c' => ['\\', 'f']
  | '\r' => ['\\', 'r']
  | c => if c.toNat < 0x20 then control c else [c]

/-- A string. -/
def string (s : String) : String :=
  String.ofList ('"' :: s.toList.flatMap escapeChar ++ ['"'])

/-- A number. -/
def number (n : Nat) : String := toString n

/-- A number or null. -/
def number? : Option Nat → String
  | some n => number n
  | none => "null"

/-- An object with its fields in order. -/
def object (fields : List (String × String)) : String :=
  "\x7b" ++ ",".intercalate (fields.map fun (key, value) => string key ++ ":" ++ value) ++ "\x7d"

end Munch.Text.Json
