import Munch.Automaton.Language
import Munch.Candidate
import Munch.Family

/-!
# What a family offers at a place

Said without a scanner: a family offers a candidate at the front of a text if the member with
that index accepts a nonempty beginning of that length, or all of the text where nothing
follows it. Maximal munch means to take an offer that no other offer beats, of which there is
at most one.

## Main definitions

* `Family.Offers`: a member accepts a beginning of the text.
* `Family.Prefers`: the offer that maximal munch takes.
* `Family.Survives`: some member is still running behind a text.
-/

namespace Munch.Family

/-- The member of the candidate accepts as many characters of `rest`. If `final`, the text ends
behind `rest`. -/
structure Offers (f : Family Automaton) (fresh final : Bool) (rest : List Char)
    (c : Candidate) : Prop where
  pos : 0 < c.length
  le : c.length ≤ rest.length
  accepts : ∃ a, f.members[c.index]? = some a ∧
    (a.Accepts fresh (rest.take c.length) ∨
      final = true ∧ c.length = rest.length ∧ a.AcceptsAtEnd fresh rest)

/-- What is offered is not empty. -/
theorem Offers.take_ne_nil {f : Family Automaton} {fresh final : Bool} {rest : List Char}
    {c : Candidate} (h : f.Offers fresh final rest c) : rest.take c.length ≠ [] := by
  have pos := h.pos
  have le := h.le
  rw [ne_eq, List.take_eq_nil_iff, not_or]
  exact ⟨by omega, List.ne_nil_of_length_pos (by omega)⟩

/-- An offer that every other offer is beaten by. -/
structure Prefers (f : Family Automaton) (fresh final : Bool) (rest : List Char)
    (c : Candidate) : Prop where
  offers : f.Offers fresh final rest c
  beats : ∀ d, f.Offers fresh final rest d → d = c ∨ c.Beats d

/-- There is no choice among preferred offers. -/
theorem Prefers.unique {f : Family Automaton} {fresh final : Bool} {rest : List Char}
    {c d : Candidate} (h : f.Prefers fresh final rest c) (h' : f.Prefers fresh final rest d) :
    c = d := by
  rcases h.beats d h'.offers with rfl | hb
  · rfl
  · rcases h'.beats c h.offers with rfl | hb'
    · rfl
    · exact absurd (hb.trans hb') c.not_beats_self

/-- Some member is still running behind the text. -/
def Survives (f : Family Automaton) (fresh : Bool) (w : List Char) : Prop :=
  ∃ a ∈ f.members, a.Survives fresh w

theorem Survives.of_append {f : Family Automaton} {fresh : Bool} {u v : List Char}
    (h : f.Survives fresh (u ++ v)) : f.Survives fresh u := by
  obtain ⟨a, member, survives⟩ := h
  exact ⟨a, member, survives.of_append⟩

theorem Survives.of_prefix {f : Family Automaton} {fresh : Bool} {u w : List Char}
    (h : f.Survives fresh w) (shorter : u <+: w) : f.Survives fresh u := by
  obtain ⟨v, rfl⟩ := shorter
  exact h.of_append

end Munch.Family
