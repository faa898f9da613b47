import Munch.Offer
import Munch.Scanner.Basic

/-!
# The course of a run, attempt by attempt

What a run over a text does, said without its scanner: nothing is read ahead, and no mark of a pass
says which links are open. A pass is told by what became of it since it was opened. An attempt is the
first one of its pass if none was made of it before, and it begins with what the attempt before left
of the text. All attempts are made of the innermost pass; the passes around it stay as they are until
it is exhausted.

## Main definitions

* `Stage`: what became of a pass since it was opened.
* `Stage.Prefers`: the offer that the next attempt of the pass should take.
* `Course`: the passes under way behind some attempts, with what was handed out.
-/

namespace Munch

/-- What became of a pass since it was opened. -/
structure Stage where
  family : Family Automaton
  /-- How many attempts were made. -/
  attempts : Nat := 0
  /-- The characters not yet consumed. -/
  rest : List Char
  /-- Where these begin. -/
  pos : Position

namespace Stage

/-- What is offered to the next attempt, to which start links are open if it is the first. -/
def Offers (v : Stage) (c : Candidate) : Prop :=
  v.family.Offers (v.attempts == 0) true v.rest c

/-- The offer that the next attempt should take. -/
def Prefers (v : Stage) (c : Candidate) : Prop :=
  v.family.Prefers (v.attempts == 0) true v.rest c

/-- The match of an offer. -/
def taken (v : Stage) (c : Candidate) : Match := ⟨c.index, v.rest.take c.length, v.pos⟩

/-- The pass behind one more attempt, by which so many characters were consumed. -/
def consume (v : Stage) (n : Nat) : Stage where
  family := v.family
  attempts := v.attempts + 1
  rest := v.rest.drop n
  pos := v.pos.visitAll (v.rest.take n)

/-- The pass that is opened over the match of an offer, if its member has an inner family. -/
def opened (v : Stage) (c : Candidate) : List Stage :=
  (v.family.inner? c.index).toList.map fun inner =>
    { family := inner, rest := v.rest.take c.length, pos := v.pos }

/-- The pass of a scanner that has come so far and owns its text. -/
def pass (v : Stage) : Pass where
  family := v.family
  buffer := v.rest
  pos := v.pos
  ended := true
  fresh := v.attempts == 0

end Stage

/-- The frames handed out and the passes under way, the innermost first, behind any number of
attempts over a text. -/
inductive Course (family : Family Automaton) (text : List Char) :
    List Frame → List Stage → Prop where
  | start : Course family text [] [{ family, rest := text, pos := {} }]
  | skip {frames : List Frame} {v : Stage} {around : List Stage} :
    Course family text frames (v :: around) → (∀ c, ¬v.Offers c) → v.rest ≠ [] →
    Course family text frames (v.consume 1 :: around)
  | found {frames : List Frame} {v : Stage} {around : List Stage} {c : Candidate} :
    Course family text frames (v :: around) → v.Prefers c →
    Course family text
      (frames ++ [⟨some c.index, String.ofList (v.rest.take c.length), v.pos, around.length⟩])
      (v.opened c ++ v.consume c.length :: around)
  | exhausted {frames : List Frame} {v : Stage} {around : List Stage} :
    Course family text frames (v :: around) → v.rest = [] →
    Course family text (frames ++ [.ending v.pos around.length]) around

end Munch
