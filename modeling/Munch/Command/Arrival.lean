import Munch.Command.Run

/-!
# Text that is still arriving

A stream may stay open for as long as the command runs, so a run cannot wait for its end. What has
arrived so far is an input that fails where the rest is still to come. A run over it that fails by
something else, or not at all, has seen all of the text that it needs. A run that comes to the rest
is made again when there is more text; the lines that it wrote are then the first ones.

## Main definitions

* `Arrival.text`: the input that has arrived.
* `Report.awaits`: a run needs more text than has arrived.
-/

namespace Munch.Command

/-- The failure of an input whose rest is still to come. -/
def awaited : ReadError := ⟨"Awaited", "the rest of the text is still to come"⟩

/-- What has arrived of a stream. -/
structure Arrival where
  chunks : Array Chunk := #[]
  /-- Nothing follows. -/
  ended : Bool := false

namespace Arrival

/-- The number of bytes that have arrived. -/
def size (a : Arrival) : Nat := Chunk.sizes a.chunks.toList

/-- What arrives later comes behind, unless the stream has ended. -/
def followedBy (a later : Arrival) : Arrival :=
  if a.ended then a else ⟨a.chunks ++ later.chunks, later.ended⟩

/-- The input that has arrived, with a failure in the place of the rest. -/
def text (a : Arrival) : Input :=
  Reader.toInput { chunks := a.chunks.toList ++ if a.ended then [] else [.failure awaited] }

end Arrival

/-- The run came to the rest of the text. -/
def Report.awaits (r : Report) : Bool :=
  match r.failure with
  | some (.lexing (.scan e)) => e.error = awaited
  | _ => false

end Munch.Command
