import Munch.Lexer.Moves

/-!
# A ledger of frames

The stack of a lexer holds frames, but not which pull each of them came from: a source may give the
same frame twice. A ledger beside the lexer numbers the frames in the order of the pulls. It keeps
the numbers of those on the stack, and notes for every move what is done to which of them. It has
no effect on the lexer.

## Main definitions

* `Recorded.frames`: the frames that a source gave; the number of a frame is its place there.
* `Lexer.Deed`, `Lexer.Ledger`: what is done to frames.
* `Lexer.Ledger.note`: what a move adds to the ledger.
* `Lexer.Booked`: a lexer with its ledger.
-/

namespace Munch

/-- The frame that an exchange brought. -/
def Exchange.frame? : Exchange → Option Frame
  | .pulled (.ok frame) => frame
  | _ => none

/-- The frames that a source gave, in the order of the pulls. -/
def Recorded.frames {σ : Type} (s : Recorded σ) : List Frame :=
  (s.history.filterMap Exchange.frame?).reverse

namespace Lexer

/-- What is done to the frame with a number. -/
inductive Deed where
  /-- `lex` makes it the current one. -/
  | taken (n : Nat)
  /-- A lookahead gives it. -/
  | peeked (n : Nat)
  /-- It is dropped, as the deepest one. -/
  | popped (n : Nat)
  /-- It is forgotten, as the lexer gives up. -/
  | discarded (n : Nat)
deriving DecidableEq

namespace Deed

/-- The number of the frame. -/
def number : Deed → Nat
  | taken n | peeked n | popped n | discarded n => n

/-- The deed may follow an earlier one: frames are taken in the order of the pulls, none of them
twice, and nothing is done to a frame that was dropped or forgotten. -/
def MayFollow (later : Deed) : Deed → Prop
  | taken n => ∀ m, later = taken m → n < m
  | peeked _ => True
  | popped n | discarded n => later.number ≠ n

end Deed

/-- The numbers of the frames on the stack, the current one first, and what was done to frames, the
latest first. -/
structure Ledger where
  held : List Nat := []
  deeds : List Deed := []
deriving DecidableEq

namespace Ledger

/-- Frames come onto the stack. -/
def push (b : Ledger) (numbers : List Nat) : Ledger := { b with held := b.held ++ numbers }

@[simp] theorem push_nil (b : Ledger) : b.push [] = b := by
  rw [push, List.append_nil]

/-- The current frame is left behind. -/
def shift (b : Ledger) : Ledger := { b with held := b.held.tail }

/-- The first frame becomes the current one. -/
def take (b : Ledger) : Ledger :=
  { b with deeds := (b.held.head?.map .taken).toList ++ b.deeds }

theorem take_of_nil {b : Ledger} (h : b.held = []) : b.take = b := by
  have nothing : (b.held.head?.map Deed.taken).toList = [] := by rw [h]; rfl
  rw [take, nothing, List.nil_append]

theorem take_of_cons {b : Ledger} {n : Nat} {rest : List Nat} (h : b.held = n :: rest) :
    b.take = { b with deeds := .taken n :: b.deeds } := by
  rw [take, h]
  rfl

/-- The frame at a level is handed out. -/
def look (b : Ledger) (level : Nat) : Ledger :=
  { b with deeds := (b.held[level]?.map .peeked).toList ++ b.deeds }

/-- The deepest frame is dropped. -/
def pop (b : Ledger) : Ledger where
  held := b.held.dropLast
  deeds := (b.held.getLast?.map .popped).toList ++ b.deeds

/-- All frames are forgotten. -/
def discard (b : Ledger) : Ledger where
  held := []
  deeds := b.held.map .discarded ++ b.deeds

end Ledger

variable {σ K : Type} [FrameSource σ]

/-- The move ends with an error. -/
def fails (l : Lexer σ K) : Move → Bool
  | .extend => (l.extend.1 matches .error _)
  | .take => (l.shift.stack.head?.bind Entry.result? matches some (.error _))
  | _ => false

/-- The numbers of the frames that a move pulls. -/
def pulledBy (l : Lexer (Recorded σ) K) (a : Move) : List Nat :=
  List.range' l.source.frames.length
    ((l.move a).source.frames.length - l.source.frames.length)

namespace Ledger

/-- What becomes of the ledger in a move that does not fail. -/
def record (b : Ledger) (l : Lexer (Recorded σ) K) : Move → Ledger
  | .shift => if l.consumed then b.shift else b
  | .extend => b.push (l.pulledBy .extend)
  | .take => (if l.consumed then b.shift else b).take
  | .look level => b.look level
  | .pop => b.pop
  | .stop => b.discard

/-- What becomes of the ledger in a move. -/
def note (b : Ledger) (l : Lexer (Recorded σ) K) (a : Move) : Ledger :=
  if l.fails a then (b.record l a).discard else b.record l a

variable {b : Ledger} {l : Lexer (Recorded σ) K} {a : Move}

theorem note_of_fails (h : l.fails a = true) : b.note l a = (b.record l a).discard := by
  rw [note, if_pos h]

theorem note_of_succeeds (h : l.fails a = false) : b.note l a = b.record l a := by
  rw [note, h]
  rfl

end Ledger

/-- A lexer with its ledger. -/
structure Booked (σ K : Type) where
  lexer : Lexer (Recorded σ) K
  ledger : Ledger := {}

namespace Booked

/-- A lexer at the beginning of a source, of which nothing was done to any frame. -/
def start (g : Grammar K) (source : σ) (capacity : Nat) : Booked σ K :=
  { lexer := Lexer.start g { source } capacity }

/-- A move of the lexer is noted in the ledger. -/
def move (x : Booked σ K) (a : Move) : Booked σ K where
  lexer := x.lexer.move a
  ledger := x.ledger.note x.lexer a

/-- Moves in a row. -/
def moves (x : Booked σ K) (ms : List Move) : Booked σ K := ms.foldl move x

@[simp] theorem moves_nil (x : Booked σ K) : x.moves [] = x := rfl

@[simp] theorem moves_cons (x : Booked σ K) (a : Move) (ms : List Move) :
    x.moves (a :: ms) = (x.move a).moves ms := rfl

@[simp] theorem moves_append (x : Booked σ K) (ms more : List Move) :
    x.moves (ms ++ more) = (x.moves ms).moves more :=
  List.foldl_append

/-- The ledger has no effect on the lexer. -/
@[simp] theorem lexer_moves (x : Booked σ K) (ms : List Move) :
    (x.moves ms).lexer = x.lexer.moves ms := by
  induction ms generalizing x with
  | nil => rfl
  | cons a ms ih => exact ih (x.move a)

end Booked

end Lexer
end Munch
