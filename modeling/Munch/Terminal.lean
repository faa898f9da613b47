import Munch.Text.Escape

/-!
# Terminal styles

Text painted in one of six colors or set in bold by escape sequences. Whether styles are shown
is decided once by the caller; without them painted text is the text itself.
-/

namespace Munch

/-- The foreground colors in use. -/
inductive Color where
  | red | green | yellow | blue | magenta | cyan
deriving DecidableEq

namespace Color

/-- The number of a color in the terminal's palette. -/
def number : Color → Nat
  | .red => 1
  | .green => 2
  | .yellow => 3
  | .blue => 4
  | .magenta => 5
  | .cyan => 6

end Color

/-- Text in a foreground color, which is reset after it. -/
def paint (styled : Bool) (color : Color) (text : String) : String :=
  if styled then s!"\x1b[38;5;{color.number}m" ++ text ++ "\x1b[39m" else text

@[simp] theorem paint_false (color : Color) (text : String) : paint false color text = text := rfl

/-- Text in bold, which is reset after it. -/
def bold (styled : Bool) (text : String) : String :=
  if styled then "\x1b[1m" ++ text ++ "\x1b[m" else text

@[simp] theorem bold_false (text : String) : bold false text = text := rfl

end Munch
