import Munch.Lexer.Error
import Munch.Scanner.Basic

/-!
# Sources of frames

A source is pulled for one frame at a time and can be told to stop. Its last answers say that
no frame follows. A finite source has a bound on the frames still to come, which makes every
loop over it end; nothing else is promised about the frames.

Here are the scanner itself, a script of prepared answers, two sources side by side, and a
source that records what is asked of it.
-/

namespace Munch

/-- A producer of frames. -/
class FrameSource (σ : Type) where
  /-- The next frame; `none` if none follows. -/
  pull : σ → Except LexError (Option Frame) × σ
  /-- Ask the producer to stop. -/
  stop : σ → σ

/-- A producer that gives finitely many frames. -/
class FiniteSource (σ : Type) [FrameSource σ] where
  /-- A bound on the frames still to come. -/
  supply : σ → Nat
  supply_pull_lt {s t : σ} {f : Frame} :
    FrameSource.pull s = (.ok (some f), t) → supply t < supply s
  supply_stop_le (s : σ) : supply (FrameSource.stop s) ≤ supply s

/-- A scanner that runs when it is pulled, with its request to stop. -/
structure Inline where
  scanner : Scanner
  raised : Bool := false

namespace Inline

/-- Request the scanner to stop. -/
def raise (s : Inline) : Inline := { s with raised := true }

/-- The result of the scanner as an answer. -/
def pull (s : Inline) : Except LexError (Option Frame) × Inline :=
  match s.scanner.next s.raised with
  | (none, scanner) => (.ok none, { s with scanner })
  | (some (.ok f), scanner) => (.ok (some f), { s with scanner })
  | (some (.error e), scanner) => (.error (.scan e), { s with scanner })

instance : FrameSource Inline where
  pull := pull
  stop := raise

instance : FiniteSource Inline where
  supply s := s.scanner.supply
  supply_pull_lt {s t f} h := by
    simp only [FrameSource.pull, pull] at h
    split at h <;> cases h
    exact Scanner.supply_next_lt ‹_›
  supply_stop_le _ := Nat.le_refl _

end Inline

/-- Prepared answers, after which no frame follows. A request to stop changes nothing. -/
structure Script where
  answers : List (Except LexError (Option Frame))

namespace Script

/-- The next answer. -/
def pull (s : Script) : Except LexError (Option Frame) × Script :=
  match s.answers with
  | [] => (.ok none, s)
  | a :: rest => (a, ⟨rest⟩)

instance : FrameSource Script where
  pull := pull
  stop := id

instance : FiniteSource Script where
  supply s := s.answers.length
  supply_pull_lt {s t f} h := by
    simp only [FrameSource.pull, pull] at h
    split at h <;> cases h
    simp [*]
  supply_stop_le _ := Nat.le_refl _

end Script

section Sum
variable {σ τ : Type} [FrameSource σ] [FrameSource τ]

/-- One of two kinds of source. -/
instance : FrameSource (σ ⊕ τ) where
  pull
    | .inl s => (FrameSource.pull s).map id .inl
    | .inr t => (FrameSource.pull t).map id .inr
  stop
    | .inl s => .inl (FrameSource.stop s)
    | .inr t => .inr (FrameSource.stop t)

instance [FiniteSource σ] [FiniteSource τ] : FiniteSource (σ ⊕ τ) where
  supply
    | .inl s => FiniteSource.supply s
    | .inr t => FiniteSource.supply t
  supply_pull_lt {s t f} h := by
    cases s <;> (
      simp only [FrameSource.pull, Prod.map, Prod.mk.injEq, id_eq] at h
      obtain ⟨h, rfl⟩ := h
      exact FiniteSource.supply_pull_lt (Prod.ext h rfl))
  supply_stop_le
    | .inl s => FiniteSource.supply_stop_le s
    | .inr t => FiniteSource.supply_stop_le t

end Sum

/-- What was asked of a source, and what it answered. -/
inductive Exchange where
  | pulled (answer : Except LexError (Option Frame))
  | stopped

/-- A source with everything that was asked of it, the latest first. -/
structure Recorded (σ : Type) where
  source : σ
  history : List Exchange := []

namespace Recorded
variable {σ : Type}

/-- How often the source was pulled. -/
def pulls (s : Recorded σ) : Nat := s.history.countP fun | .pulled _ => true | .stopped => false

/-- How often the source was asked to stop. -/
def stops (s : Recorded σ) : Nat := s.history.countP fun | .pulled _ => false | .stopped => true

variable [FrameSource σ]

/-- Pull, and note the answer. -/
def pull (s : Recorded σ) : Except LexError (Option Frame) × Recorded σ :=
  let (answer, source) := FrameSource.pull s.source
  (answer, { source, history := .pulled answer :: s.history })

instance : FrameSource (Recorded σ) where
  pull := pull
  stop s := { source := FrameSource.stop s.source, history := .stopped :: s.history }

theorem history_pull {s t : Recorded σ} {answer : Except LexError (Option Frame)}
    (h : FrameSource.pull s = (answer, t)) : t.history = .pulled answer :: s.history := by
  cases h
  rfl

instance [FiniteSource σ] : FiniteSource (Recorded σ) where
  supply s := FiniteSource.supply s.source
  supply_pull_lt {s t f} h := by
    simp only [FrameSource.pull, pull, Prod.mk.injEq] at h
    obtain ⟨answer, rfl⟩ := h
    exact FiniteSource.supply_pull_lt (Prod.ext answer rfl)
  supply_stop_le s := FiniteSource.supply_stop_le s.source

end Recorded
end Munch
