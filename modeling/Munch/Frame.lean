import Munch.Input
import Munch.Position

/-!
# Frames

A scanner hands out frames. A match frame names the member that matched, the text and where it
starts; an end frame closes a pass. The depth counts the passes around the one that the frame
belongs to, so an end frame of depth zero closes the whole stream.
-/

namespace Munch

/-- A matched span, or the end of a pass if `automaton` is `none`. -/
structure Frame where
  /-- The index of the member that matched. -/
  automaton : Option Nat
  text : String
  /-- Where the text starts. -/
  pos : Position
  /-- How many passes are around this one. -/
  depth : Nat
deriving DecidableEq

namespace Frame

/-- The frame that closes a pass. -/
def ending (pos : Position) (depth : Nat) : Frame := ⟨none, "", pos, depth⟩

/-- The frame closes a pass. -/
def isEnd (f : Frame) : Bool := f.automaton.isNone

/-- The frame closes the outermost pass, and with it the stream. -/
def isSentinel (f : Frame) : Bool := f.isEnd && f.depth == 0

end Frame

/-- A read failed at a position. No frame follows such a failure. -/
structure ScanError where
  error : ReadError
  pos : Position
deriving DecidableEq

/-- The wording of a scan error. -/
def ScanError.message (e : ScanError) : String :=
  e.pos.describe ++ " - read failure: " ++ e.error.message ++ "."

end Munch
