import Munch.Shell.Display
import Munch.Text.Json

/-!
# Output lines

The line of a token and of a frame, for people and for programs. For people a frame is
indented by its depth and shows the index of its member with the text, or its end. For programs
a line is one JSON object.
-/

namespace Munch.Command

open Text (Json.object Json.string Json.number Json.number?)

/-- How output is written. -/
inductive Format where
  /-- For people, with or without terminal styles. -/
  | plain (styled : Bool)
  /-- One JSON object a line. -/
  | json

/-- A position as an object. -/
def positionJson (p : Position) : String :=
  Json.object [("line", Json.number p.line.toNat), ("column", Json.number p.column.toNat)]

/-- A token kind as an object with its name and, if it carries anything, its value. -/
def kindJson : Shell.Kind → String
  | .operator o => Json.object [("kind", Json.string "operator"), ("value", Json.string o.name)]
  | .reserved r => Json.object [("kind", Json.string "reserved"), ("value", Json.string r.name)]
  | .word text => Json.object [("kind", Json.string "word"), ("value", Json.string text)]
  | .ioNumber text => Json.object [("kind", Json.string "io_number"), ("value", Json.string text)]
  | .newline => Json.object [("kind", Json.string "newline")]

/-- The line of a token. -/
def tokenLine (format : Format) (t : Token Shell.Kind) : String :=
  match format with
  | .plain styled => Shell.displayToken styled t
  | .json => Json.object [("kind", kindJson t.kind), ("pos", positionJson t.pos)]

/-- The line of an error. -/
def errorLine (styled : Bool) (message : String) : String :=
  paint styled .red "Error" ++ ": " ++ message

/-- The line of a frame. -/
def frameLine (format : Format) (f : Frame) : String :=
  match format with
  | .plain styled =>
    let indent := String.ofList (List.replicate (2 * f.depth) ' ')
    let content := match f.automaton with
      | some i => paint styled .green (toString i) ++ " " ++ Text.quoted f.text
      | none => paint styled .magenta "end"
    paint styled .cyan f.pos.label ++ "  " ++ indent ++ content
  | .json =>
    Json.object [("automaton", Json.number? f.automaton), ("text", Json.string f.text),
      ("pos", positionJson f.pos), ("depth", Json.number f.depth)]

end Munch.Command
