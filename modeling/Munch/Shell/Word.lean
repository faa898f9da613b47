import Munch.Shell.Grammar

/-!
# The words of the shell language

Which texts are words, said without automata. A word is one or more segments: an unquoted
character, a quoted part, or a backslash with the character it escapes. Between single quotes
nothing is special; between double quotes a backslash still takes the next character with it,
so that a double quote can stand inside.

## Main definitions

* `Segment`, `IsWord`: the segments of a word, and the words.
* `LongestWord`: the longest word at the beginning of a text.
* `IsNumber`: the texts that are numbers.
-/

namespace Munch.Shell

/-- The character ends or opens something outside quotes, so it is no unquoted part of a word. -/
def IsSpecial (c : Char) : Prop := c ∈ delimiters.toList ∨ c = '\'' ∨ c = '"' ∨ c = '\\'

instance (c : Char) : Decidable (IsSpecial c) := inferInstanceAs (Decidable (_ ∨ _))

/-- What may stand between double quotes. -/
inductive InDoubleQuotes : List Char → Prop where
  | nil : InDoubleQuotes []
  | char {c : Char} {cs : List Char} : c ≠ '"' → c ≠ '\\' → InDoubleQuotes cs →
    InDoubleQuotes (c :: cs)
  | pair (c : Char) {cs : List Char} : InDoubleQuotes cs → InDoubleQuotes ('\\' :: c :: cs)

/-- A part of a word. -/
inductive Segment : List Char → Prop where
  | unquoted {c : Char} : ¬IsSpecial c → Segment [c]
  | single {cs : List Char} : '\'' ∉ cs → Segment ('\'' :: cs ++ ['\''])
  | double {cs : List Char} : InDoubleQuotes cs → Segment ('"' :: cs ++ ['"'])
  | escape (c : Char) : Segment ['\\', c]

/-- One or more segments. -/
inductive IsWord : List Char → Prop where
  | segment {s : List Char} : Segment s → IsWord s
  | append {s w : List Char} : Segment s → IsWord w → IsWord (s ++ w)

/-- The word is at the beginning of the text, and no longer one is. -/
structure LongestWord (w text : List Char) : Prop where
  isWord : IsWord w
  fits : w <+: text
  longest : ∀ v, IsWord v → v <+: text → v.length ≤ w.length

/-- One or more digits. -/
def IsNumber (cs : List Char) : Prop := cs ≠ [] ∧ ∀ c ∈ cs, c ∈ digits.toList

end Munch.Shell
