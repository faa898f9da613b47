import Munch.Scanner.Basic

/-!
# Frames by recursion

What a scanner hands out over a whole text, said at once instead of step by step: the matches
of a pass over the text in order, each followed by the frames of its inner family over the
matched text, and then the end of the pass. Nothing is suspended here, so this listing is what
the stack of passes has to agree with.

## Main definitions

* `Pass.matches`: the matches of a pass over a text at hand, and the position behind it.
* `Family.listing`: the frames of a family over a text.
-/

namespace Munch

/-- The matches that a pass still finds in the text at hand, in order, and the position at
which it ends. -/
def Pass.matches (p : Pass) : List Match × Position :=
  match scanned : p.scan .empty with
  | (.found m q, left) =>
    have : q.buffer.length < p.buffer.length := by
      obtain ⟨skipped, tiles, nonempty, -⟩ := Pass.tiles_of_scan scanned
      have := congrArg List.length tiles
      have := List.length_pos_iff.2 nonempty
      simp only [Input.empty, List.append_nil, List.length_append] at *
      omega
    let (rest, last) := q.matches
    (m :: rest, last)
  | (.exhausted pos, _) => ([], pos)
  | (.failed _ pos, _) => ([], pos)
termination_by p.buffer.length

/-- The frames of a family over a text that begins at a position, with `depth` passes around
it. -/
def Family.listing (f : Family Automaton) (text : List Char) (pos : Position) (depth : Nat) :
    List Frame :=
  let (found, last) := Pass.matches { family := f, buffer := text, pos, ended := true }
  found.flatMap (fun m =>
    ⟨some m.index, String.ofList m.text, m.pos, depth⟩ ::
      match inner : f.inner? m.index with
      | some g =>
        have := height_lt_of_inner? inner
        g.listing m.text m.pos (depth + 1)
      | none => [])
    ++ [.ending last depth]
termination_by f.height

end Munch
