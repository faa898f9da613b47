/-!
# Candidates for a match

A candidate is a member of a family with the length of a text it accepts. The longest
candidate is preferred, and among equally long ones that of the first member; a candidate of
length zero never counts, as it would bring the scanner no further.
-/

namespace Munch

/-- A member and the length of a text it accepts. -/
structure Candidate where
  index : Nat
  length : Nat
deriving DecidableEq

namespace Candidate

/-- Whether a candidate is preferred: it is longer, or as long and of an earlier member. -/
def Beats (c b : Candidate) : Prop :=
  b.length < c.length ∨ b.length = c.length ∧ c.index < b.index

instance (c b : Candidate) : Decidable (c.Beats b) :=
  inferInstanceAs (Decidable (_ ∨ _ ∧ _))

theorem not_beats_self (c : Candidate) : ¬c.Beats c := by unfold Beats; omega

theorem Beats.trans {a b c : Candidate} (h : a.Beats b) (h' : b.Beats c) : a.Beats c := by
  unfold Beats at *; omega

theorem beats_or_eq_or_beats (b c : Candidate) : b.Beats c ∨ b = c ∨ c.Beats b := by
  obtain ⟨i, m⟩ := b
  obtain ⟨j, n⟩ := c
  simp only [Beats, Candidate.mk.injEq]
  omega

/-- The preferred one of the best candidate so far and another; nothing of length zero is a
candidate. -/
def better (best : Option Candidate) (c : Candidate) : Option Candidate :=
  if c.length = 0 then best
  else match best with
    | none => some c
    | some b => if c.Beats b then some c else some b

end Candidate

end Munch
