import Munch.Lexer.Reading

/-!
# Lexers over sources that answer alike

A lexer knows its source by the answers to its pulls only, and it stops pulling for good at the
first answer that is not a frame, at the sentinel, and when it gives up. Two sources that give the
same answers up to there are therefore the same to a lexer, whatever they would answer later, and
whatever they make of a request to stop.

## Main definitions

* `Lexer.withSource`: a lexer with another source in the place of its own.
* `Alike`: sources that give the same answers as long as a lexer pulls.
* `Lexer.View`, `Lexer.Shows`: what a user sees of a lexer, and of a run of calls.
* `Lexer.shows_iff`: calls show the same over sources that are alike.
-/

namespace Munch

variable {σ τ K : Type} [FrameSource σ] [FrameSource τ]

/-- Related sources give the same answer, and are related again behind a frame that is not the
sentinel. -/
def Alike (R : σ → τ → Prop) : Prop :=
  ∀ s t, R s t → (FrameSource.pull t).1 = (FrameSource.pull s).1 ∧
    ∀ f, (FrameSource.pull s).1 = .ok (some f) → f.isSentinel = false →
      R (FrameSource.pull s).2 (FrameSource.pull t).2

namespace Lexer

/-- A lexer with another source in the place of its own. -/
def withSource (l : Lexer σ K) (t : τ) : Lexer τ K where
  source := t
  scopes := l.scopes
  stack := l.stack
  capacity := l.capacity
  consumed := l.consumed
  status := l.status

/-- What a user sees of a lexer without calling it. -/
structure View where
  depth : Nat
  text : String
  pos : Position
deriving DecidableEq

/-- The number of frames on the stack, and the text and position of the deepest. -/
def view (l : Lexer σ K) : View := ⟨l.depth, l.text, l.pos⟩

/-- Calls in a row return with their replies, and then show a view each. -/
inductive Shows : Lexer σ K → List (Call × Reply K × View) → Prop where
  | nil (l : Lexer σ K) : Shows l []
  | cons {l m : Lexer σ K} {c : Call} {r : Reply K} {rest : List (Call × Reply K × View)} :
    Performs l c r m → Shows m rest → Shows l ((c, r, m.view) :: rest)

/-- A source stands for that of a lexer as long as the lexer pulls. -/
def StandsFor (R : σ → τ → Prop) (l : Lexer σ K) (t : τ) : Prop :=
  l.status = .running → R l.source t

section WithSource

variable {R : σ → τ → Prop} {l m : Lexer σ K} {t : τ}

omit [FrameSource σ] [FrameSource τ] in
theorem shift_withSource (l : Lexer σ K) (t : τ) :
    (l.withSource t).shift = l.shift.withSource t := by
  rw [shift, shift]
  split <;> rename_i consumed <;> simp only [withSource] at consumed ⊢ <;> simp [consumed]

theorem stop_withSource (l : Lexer σ K) (t : τ) :
    ∃ u, (l.withSource t).stop = l.stop.withSource u ∧ l.stop.status ≠ .running := by
  rw [stop, stop]
  by_cases running : l.status = .running
  · have still : (l.withSource t).status = .running := running
    rw [if_pos running, if_pos still]
    exact ⟨FrameSource.stop t, rfl, by simp [discard]⟩
  · have still : (l.withSource t).status ≠ .running := running
    rw [if_neg running, if_neg still]
    exact ⟨t, rfl, running⟩

omit [FrameSource σ] [FrameSource τ] in
theorem standsFor_of_halted (halted : l.status ≠ .running) : StandsFor R l t :=
  fun running => absurd running halted

omit [FrameSource τ] in
theorem standsFor_fail (l : Lexer σ K) (t : τ) : StandsFor R l.fail t :=
  standsFor_of_halted (by simp [fail, discard])

/-- A pull onto the stack comes to the same. -/
theorem extend_withSource (alike : Alike R) (h : StandsFor R l t) :
    ∃ u, (l.withSource t).extend = (l.extend.1, l.extend.2.withSource u) ∧
      StandsFor R l.extend.2 u := by
  have status : (l.withSource t).status = l.status := rfl
  have source : (l.withSource t).source = t := rfl
  rw [extend, extend, pull, pull, status, source]
  by_cases running : l.status = .running
  · obtain ⟨answers, follows⟩ := alike _ _ (h running)
    rcases pulled : FrameSource.pull l.source with ⟨answer, s'⟩
    rcases pulled' : FrameSource.pull t with ⟨answer', t'⟩
    rw [pulled, pulled'] at answers follows
    dsimp only at answers follows
    subst answers
    rw [if_pos running, if_pos running]
    rcases answer' with e | _ | f
    · exact ⟨FrameSource.stop t', rfl, standsFor_fail _ _⟩
    · exact ⟨t', rfl, standsFor_of_halted (by simp)⟩
    · have scopes : (l.withSource t).scopes = l.scopes := rfl
      dsimp only
      rw [scopes]
      cases rule : resolve? l.scopes f with
      | none => exact ⟨FrameSource.stop t', rfl, standsFor_fail _ _⟩
      | some p =>
        dsimp only
        by_cases room : l.stack.length < l.capacity
        · have there : (l.withSource t).stack.length < (l.withSource t).capacity := room
          rw [if_pos room, if_pos there]
          refine ⟨t', rfl, fun still => follows f rfl ?_⟩
          cases last : f.isSentinel with
          | false => rfl
          | true => simp [last] at still
        · have there : ¬(l.withSource t).stack.length < (l.withSource t).capacity := room
          rw [if_neg room, if_neg there]
          exact ⟨FrameSource.stop t', rfl, standsFor_fail _ _⟩
  · rw [if_neg running, if_neg running]
    exact ⟨t, rfl, h⟩

theorem extendBy_withSource (alike : Alike R) (h : StandsFor R l t) (n : Nat) :
    ∃ u, (l.withSource t).extendBy n = ((l.extendBy n).1, (l.extendBy n).2.withSource u) ∧
      StandsFor R (l.extendBy n).2 u := by
  induction n generalizing l t with
  | zero => exact ⟨t, rfl, h⟩
  | succ n ih =>
    obtain ⟨u, same, stands⟩ := extend_withSource alike h
    rw [extendBy, extendBy, same]
    rcases extended : l.extend with ⟨e | _ | _, m⟩ <;> rw [extended] at stands
    · exact ⟨u, rfl, stands⟩
    · exact ⟨u, rfl, stands⟩
    · exact ih stands

theorem peek_withSource (alike : Alike R) (h : StandsFor R l t) (level : Nat) :
    ∃ u, (l.withSource t).peek level = ((l.peek level).1, (l.peek level).2.withSource u) ∧
      StandsFor R (l.peek level).2 u := by
  have capacity : (l.withSource t).capacity = l.capacity := rfl
  have stack : (l.withSource t).stack = l.stack := rfl
  rw [peek, peek, capacity, stack]
  by_cases full : l.capacity ≤ level
  · rw [if_pos full, if_pos full]
    exact ⟨t, rfl, h⟩
  · obtain ⟨u, same, stands⟩ := extendBy_withSource alike h (level + 1 - l.stack.length)
    rw [if_neg full, if_neg full, same]
    rcases extended : l.extendBy (level + 1 - l.stack.length) with ⟨e | more, m⟩ <;>
      rw [extended] at stands
    · exact ⟨u, rfl, stands⟩
    · exact ⟨u, rfl, stands⟩

theorem classify_withSource (h : StandsFor R l t) (e : Entry K) :
    ∃ u, (l.withSource t).classify e = ((l.classify e).1, (l.classify e).2.withSource u) ∧
      StandsFor R (l.classify e).2 u := by
  rcases made : e.result? with _ | error | token
  · rw [classify_of_none made, classify_of_none made]
    exact ⟨t, rfl, h⟩
  · rw [classify_of_error made, classify_of_error made]
    exact ⟨FrameSource.stop t, rfl, standsFor_fail _ _⟩
  · rw [classify_of_token made, classify_of_token made]
    exact ⟨t, rfl, h⟩

theorem turn_withSource (alike : Alike R) (h : StandsFor R l t) :
    ∃ u, (l.withSource t).turn = (l.turn.1, l.turn.2.withSource u) ∧ StandsFor R l.turn.2 u := by
  have shifted : StandsFor R l.shift t := by
    intro running
    rw [source_shift]
    exact h (by simpa using running)
  have stack : (l.shift.withSource t).stack = l.shift.stack := rfl
  rw [turn, turn, shift_withSource, stack]
  cases held : l.shift.stack with
  | cons e rest => exact classify_withSource shifted e
  | nil =>
    obtain ⟨u, same, stands⟩ := extend_withSource alike shifted
    rw [same]
    rcases extended : l.shift.extend with ⟨e | _ | _, m⟩ <;> rw [extended] at stands
    · exact ⟨u, rfl, stands⟩
    · exact ⟨u, rfl, stands⟩
    · have pushed : (m.withSource u).stack = m.stack := rfl
      dsimp only
      rw [pushed]
      cases m.stack with
      | nil => exact ⟨u, rfl, stands⟩
      | cons e rest => exact classify_withSource stands e

/-- A call of `lex` returns with the same. -/
theorem lexes_withSource (alike : Alike R) {r : Option (Except LexError (Token K))}
    (lexes : Lexes l r m) (h : StandsFor R l t) :
    ∃ u, Lexes (l.withSource t) r (m.withSource u) ∧ StandsFor R m u := by
  induction lexes generalizing t with
  | result turned =>
    obtain ⟨u, same, stands⟩ := turn_withSource alike h
    rw [turned] at same stands
    exact ⟨u, .result same, stands⟩
  | skip turned _ ih =>
    obtain ⟨u, same, stands⟩ := turn_withSource alike h
    rw [turned] at same stands
    obtain ⟨v, lexes, stands⟩ := ih stands
    exact ⟨v, .skip same lexes, stands⟩

theorem performs_withSource (alike : Alike R) {c : Call} {r : Reply K} (performs : Performs l c r m)
    (h : StandsFor R l t) :
    ∃ u, Performs (l.withSource t) c r (m.withSource u) ∧ StandsFor R m u := by
  cases performs with
  | lex lexes =>
    obtain ⟨u, lexes, stands⟩ := lexes_withSource alike lexes h
    exact ⟨u, .lex lexes, stands⟩
  | peek level =>
    obtain ⟨u, same, stands⟩ := peek_withSource alike h level
    have performs := Performs.peek (l.withSource t) level
    rw [same] at performs
    exact ⟨u, performs, stands⟩
  | pop => exact ⟨t, .pop (l.withSource t), h⟩
  | stop =>
    obtain ⟨u, same, halted⟩ := stop_withSource l t
    have performs := Performs.stop (l.withSource t)
    rw [same] at performs
    exact ⟨u, performs, standsFor_of_halted halted⟩

/-- Calls show the same over a source that is alike. -/
theorem Shows.withSource (alike : Alike R) {seen : List (Call × Reply K × View)}
    (seeing : Shows l seen) (h : StandsFor R l t) : Shows (l.withSource t) seen := by
  induction seeing generalizing t with
  | nil l => exact .nil _
  | cons performs _ ih =>
    obtain ⟨u, performs, stands⟩ := performs_withSource alike performs h
    exact .cons performs (ih stands)

end WithSource

end Lexer

theorem Alike.symm {R : σ → τ → Prop} (h : Alike R) : Alike fun t s => R s t := by
  intro t s related
  obtain ⟨answers, follows⟩ := h s t related
  exact ⟨answers.symm, fun f given more => follows f (answers ▸ given) more⟩

/-- Recording what is asked of a source makes no difference to its answers. -/
theorem alike_recorded : Alike fun (s : σ) (r : Recorded σ) => r.source = s := by
  rintro s r rfl
  exact ⟨rfl, fun _ _ _ => rfl⟩

namespace Lexer

/-- Calls show the same from the beginning of sources that are alike. -/
theorem shows_iff {R : σ → τ → Prop} (alike : Alike R) {s : σ} {t : τ} (related : R s t)
    (g : Grammar K) (capacity : Nat) (seen : List (Call × Reply K × View)) :
    Shows (start g s capacity) seen ↔ Shows (start g t capacity) seen := by
  constructor
  · intro seeing
    exact seeing.withSource alike (t := t) fun _ => related
  · intro seeing
    exact seeing.withSource alike.symm (t := s) fun _ => related

omit [FrameSource τ] in
/-- A lexer over a recorded source is the lexer over the source itself to its user. -/
theorem shows_recorded (g : Grammar K) (source : σ) (capacity : Nat)
    (seen : List (Call × Reply K × View)) :
    Shows (start g source capacity) seen ↔
      Shows (start g ({ source } : Recorded σ) capacity) seen :=
  shows_iff (s := source) (t := ({ source } : Recorded σ)) alike_recorded rfl g capacity seen

omit [FrameSource τ] in
/-- Every run shows something after each of its calls. -/
theorem Runs.shows {l m : Lexer σ K} {run : List (Call × Reply K)} (h : Runs l run m) :
    ∃ seen, Shows l seen ∧ seen.map (fun x => (x.1, x.2.1)) = run := by
  induction h with
  | nil l => exact ⟨[], .nil l, rfl⟩
  | cons performs _ ih =>
    obtain ⟨seen, seeing, rfl⟩ := ih
    exact ⟨_, .cons performs seeing, rfl⟩

end Lexer
end Munch
