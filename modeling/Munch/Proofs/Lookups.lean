import Munch.Lexer.Alike
import Munch.Lexer.Moves
import Munch.Lexer.Pulls
import Munch.Scanner.Checked

/-!
# Lookups in range

No state, no mark of a silent chain and no member of a family is ever looked up out of range. For
the table of an automaton this is what its validation is for: a chain is searched only after every
reference was examined. A scanner starts its runs in states of the table and moves them along such
references. So to a lexer, a scanner that gives up at the first lookup out of range is the same as
the scanner itself.

## Main definitions

* `Guarded`: a scanner that gives up at a lookup out of range.
* `Guarded.pull_eq`: it never does.
* `lookups_in_range`: tables, calls of a scanner, and runs of a lexer.
-/

namespace Munch

/-- A scanner that runs when it is pulled, and gives up at the first lookup out of range. -/
structure Guarded where
  inline : Inline
  /-- A lookup was out of range. -/
  failed : Bool := false

namespace Guarded

/-- The result of the scanner as an answer. After a lookup out of range no frame follows. -/
def pull (s : Guarded) : Except LexError (Option Frame) × Guarded :=
  match Checked.next s.inline.scanner s.inline.raised with
  | none => (.ok none, { s with failed := true })
  | some (none, scanner) => (.ok none, { s with inline := { s.inline with scanner } })
  | some (some (.ok f), scanner) => (.ok (some f), { s with inline := { s.inline with scanner } })
  | some (some (.error e), scanner) =>
    (.error (.scan e), { s with inline := { s.inline with scanner } })

instance : FrameSource Guarded where
  pull := pull
  stop s := { s with inline := s.inline.raise }

/-- No lookup is out of range, so the answer is that of the scanner. -/
theorem pull_eq (s : Guarded) :
    FrameSource.pull s =
      ((FrameSource.pull s.inline).1, { s with inline := (FrameSource.pull s.inline).2 }) := by
  simp only [FrameSource.pull, pull, Inline.pull, Checked.next_eq]
  rcases s.inline.scanner.next s.inline.raised with ⟨_ | e | f, scanner⟩ <;> rfl

instance : FiniteSource Guarded where
  supply s := FiniteSource.supply s.inline
  supply_pull_lt {s t f} h := by
    rw [pull_eq, Prod.mk.injEq] at h
    obtain ⟨answer, rfl⟩ := h
    exact FiniteSource.supply_pull_lt (Prod.ext answer rfl)
  supply_stop_le s := FiniteSource.supply_stop_le s.inline

theorem alike_inline : Alike fun (s : Inline) (t : Guarded) => t.inline = s := by
  rintro s t rfl
  rw [pull_eq]
  exact ⟨rfl, fun _ _ _ => rfl⟩

end Guarded

namespace Lexer

variable {σ K : Type} [FrameSource σ]

/-- What a pull and a request to stop preserve holds of the source at the end of a run. -/
theorem source_of_runs {P : σ → Prop} (pull : ∀ s, P s → P (FrameSource.pull s).2)
    (stop : ∀ s, P s → P (FrameSource.stop s)) {l m : Lexer σ K} {run : List (Call × Reply K)}
    (runs : Runs l run m) (h : P l.source) : P m.source := by
  have keeps : Keeps fun l : Lexer σ K => P l.source := by
    refine ⟨fun l h => by rwa [source_shift], fun _ h => h, fun _ h => h, fun l h => ?_,
      fun l h => stop _ h⟩
    rw [Lexer.stop]
    split
    · exact stop _ h
    · exact h
  have extend (l : Lexer σ K) (h : P l.source) : P l.extend.2.source := by
    have pulled := pull _ h
    have extended := extended_extend l
    generalize l.extend = result at extended ⊢
    cases extended with
    | halted => exact h
    | ended _ answer => rwa [answer] at pulled
    | pushed _ answer => rwa [answer] at pulled
    | lost _ answer _ same =>
      rw [answer, ← same] at pulled
      exact stop _ pulled
  exact (keeps.runs (Q := fun _ => True) (E := fun _ => True) (fun _ _ _ _ => trivial) runs h
    fun n _ hn => ⟨extend n hn, fun _ _ => trivial⟩).1

end Lexer

/-- No lookup is out of range, neither of a state, nor of a mark of a silent chain, nor of a member
of a family. An automaton is made from every table without one. A scanner makes none in any calls,
whatever its families and its input, wherever it is in them, and whenever a stop is requested. And
none is made in any run of a lexer over a scanner; all its calls return, and show what they show
over the scanner itself. -/
theorem lookups_in_range :
    (∀ states, Checked.ofStates states = some ((Automaton.ofStates states).map (·.states))) ∧
    (∀ (s : Scanner) (schedule : List Bool),
      Checked.calls s schedule = some (s.calls schedule)) ∧
    ∀ (K : Type) (g : Grammar K) (family : Family Automaton) (input : Input) (capacity : Nat),
      let inline : Inline := ⟨Scanner.start family input, false⟩
      let first := Lexer.start g ({ inline } : Guarded) capacity
      (∀ calls, ∃ run last, Lexer.Runs first run last ∧ run.map (·.1) = calls) ∧
      (∀ run last, Lexer.Runs first run last → last.source.failed = false) ∧
      ∀ seen, Lexer.Shows first seen ↔ Lexer.Shows (Lexer.start g inline capacity) seen := by
  refine ⟨Checked.ofStates_eq, Checked.calls_eq, ?_⟩
  intro K g family input capacity inline first
  refine ⟨Lexer.exists_runs first, fun run last runs => ?_, fun seen => ?_⟩
  · refine Lexer.source_of_runs (P := fun s => s.failed = false) (fun s h => ?_) (fun s h => h)
      runs rfl
    rw [Guarded.pull_eq]
    exact h
  · exact (Lexer.shows_iff Guarded.alike_inline (t := { inline }) rfl g capacity seen).symm

/-- The silent links run in circles: at the start between the first two states, at the end between
the last two. -/
def Automaton.inCircles : Automaton where
  states := #[{ edges := [⟨'a', 'a', some 1⟩], start := some 1 },
    { start := some 0, finish := some 2 },
    { accepting := true, finish := some 1 }]
  nonempty := by simp
  wellFormed := by simp [Automaton.State.WellFormed, Automaton.Edge.WellFormed]
  silent := by decide

/-- The match behind a skipped character is accepted through the end links, in the outer family and
in the inner one. -/
theorem lookups_in_range_in_circles :
    let rule (action : Action String) : Rule String := ⟨.inCircles, action⟩
    let g : Grammar String := .nesting (rule (.pass id)) (.plain (rule .skip) .nil) .nil
    let inline : Inline := ⟨Scanner.start g.automata (.ofString "ba"), false⟩
    let first := Lexer.start g ({ inline } : Guarded) 2
    ∃ last, Lexer.Runs first [(.peek 1, .peeked (.ok (some ⟨some 0, "a", ⟨0, 1⟩, 1⟩))),
      (.lex, .token (some (.ok ⟨"a", ⟨0, 1⟩⟩))), (.stop, .stopped)] last ∧
      last.source.failed = false := by
  intro rule g inline first
  have peeked : (first.peek 1).1 = .ok (some ⟨some 0, "a", ⟨0, 1⟩, 1⟩) := by decide +kernel
  have lexed : (first.peek 1).2.lex.1 = some (.ok ⟨"a", ⟨0, 1⟩⟩) := by decide +kernel
  have runs : Lexer.Runs first [(.peek 1, .peeked (first.peek 1).1),
      (.lex, .token (first.peek 1).2.lex.1), (.stop, .stopped)] _ :=
    .cons (.peek first 1) (.cons (.lex (Lexer.lexes_iff.2 rfl)) (.cons (.stop _) (.nil _)))
  rw [peeked, lexed] at runs
  have intact := (lookups_in_range.2.2 String g g.automata (.ofString "ba") 2).2.1
  exact ⟨_, runs, intact _ _ runs⟩

end Munch
