/-!
# Inputs read one character at a time

An input yields its characters in order, then either ends or fails, the same way on every
later read. It counts the reads, those that meet the end or the failure included, because how
far ahead a reader looks is observable: a read may have to wait for a person at a terminal.
-/

namespace Munch

/-- Why a read failed: the class of the failure and its wording. -/
structure ReadError where
  kind : String
  message : String
deriving DecidableEq

/-- A stream of characters that was read from its beginning. -/
structure Input where
  /-- The characters not yet read. -/
  rest : List Char
  /-- How reads past the last character fail; `none` if the stream ends there. -/
  failure : Option ReadError := none
  /-- How many reads were made. -/
  reads : Nat := 0

namespace Input

/-- The input of a text. -/
def ofString (s : String) : Input := { rest := s.toList }

/-- The input without characters. -/
def empty : Input := { rest := [] }

/-- Read one character; `none` at the end of the stream. -/
def read (i : Input) : Except ReadError (Option Char) × Input :=
  match i.rest, i.failure with
  | c :: cs, _ => (.ok (some c), { i with rest := cs, reads := i.reads + 1 })
  | [], none => (.ok none, { i with reads := i.reads + 1 })
  | [], some e => (.error e, { i with reads := i.reads + 1 })

/-- Every read counts, also one that meets the end or the failure. -/
theorem reads_of_read {i j : Input} {r : Except ReadError (Option Char)} (h : i.read = (r, j)) :
    j.reads = i.reads + 1 := by
  rw [read] at h
  split at h <;> cases h <;> rfl

theorem rest_of_read_some {i j : Input} {c : Char} (h : i.read = (.ok (some c), j)) :
    i.rest = c :: j.rest := by
  rw [read] at h
  split at h <;> simp_all
  obtain ⟨_, rfl⟩ := h
  rfl

theorem rest_of_read_none {i j : Input} (h : i.read = (.ok none, j)) :
    i.rest = [] ∧ j.rest = [] := by
  rw [read] at h
  split at h <;> simp_all
  obtain rfl := h
  simp_all

end Input
end Munch
