import Munch.Channel.Threads
import Munch.Lexer.Alike
import Munch.Proofs.Delivery

/-!
# Lexing behind a channel

A lexer over the consumer's end of a channel shows what a lexer over the scanner itself would show.
The answers that are still to come at the channel are the results that the scanner has still to
give. The two sources do part in the end: requested to stop, a scanner may still give its sentinel,
while a consumer that does not listen finds nothing. A lexer does not see that, as it does not pull
once it has requested a stop, nor behind the last item.

## Main definitions

* `Channel.Carries`: what the channel has still to deliver is what the scanner has still to give.
* `Lexer.threaded_eq_inline`: calls show the same over a channel and over its scanner.
-/

namespace Munch

variable {σ : Type} [FrameSource σ] {channel : σ → Channel} {s : Inline} {t : σ}

/-- The channel has still to deliver what the scanner has still to give. -/
structure Channel.Carries (channel : σ → Channel) (s : Inline) (t : σ) : Prop where
  unraised : s.raised = false
  quiet : (channel t).raised = false
  settled : (channel t).continuation = .settled
  outlook : (channel t).Outlook (s.scanner.results.map answer)

/-- A pull of the scanner gives the first of its results, and leaves the others. -/
theorem Inline.pull_results (unraised : s.raised = false) :
    (FrameSource.pull s).1 = (s.scanner.results.map Channel.answer).headD (.ok none) ∧
      ∀ f, (FrameSource.pull s).1 = .ok (some f) →
        (FrameSource.pull s).2.raised = false ∧
          (FrameSource.pull s).2.scanner.results = s.scanner.results.tail := by
  simp only [FrameSource.pull, pull, unraised]
  rcases called : s.scanner.next false with ⟨_ | e | f, scanner⟩
  · rw [Scanner.results_of_none called]
    exact ⟨rfl, by simp⟩
  · rw [Scanner.results_of_error called]
    exact ⟨rfl, by simp⟩
  · rw [Scanner.results_of_frame called]
    exact ⟨rfl, fun _ _ => ⟨rfl, rfl⟩⟩

theorem Channel.alike_carries (threads : Threads channel) : Alike (Carries channel) := by
  intro s t carries
  obtain ⟨ys, own, steps⟩ := threads t carries.settled
  obtain ⟨first, outlook, quiet⟩ := carries.outlook.pull carries.quiet own steps
  obtain ⟨given, follows⟩ := Inline.pull_results carries.unraised
  refine ⟨first.trans given.symm, fun f frame _ => ?_⟩
  obtain ⟨unraised, rest⟩ := follows f frame
  refine ⟨unraised, quiet, steps.continuation_eq.trans carries.settled, ?_⟩
  rw [rest, List.map_tail]
  exact outlook

namespace Lexer

variable {K : Type}

/-- A lexer over a channel and one over the scanner behind it show the same after each call: its
reply, the number of frames on the stack, and the text and position of the deepest. The scanner may
run over any input that does not break, also one that fails, and the producer may take its turns in
any way. All calls return. -/
theorem threaded_eq_inline (threads : Channel.Threads channel) (g : Grammar K)
    (family : Family Automaton) (input : Input) (capacity : Nat) (source : σ)
    (spawned : channel source = .spawn (Scanner.start family input)) :
    let inline : Inline := ⟨Scanner.start family input, false⟩
    (∀ calls, ∃ seen, seen.map (·.1) = calls ∧ Shows (start g source capacity) seen) ∧
    ∀ seen, Shows (start g source capacity) seen ↔ Shows (start g inline capacity) seen := by
  intro inline
  have carries : Channel.Carries channel inline source := by
    refine ⟨rfl, ?_, ?_, ?_⟩ <;> rw [spawned]
    · rfl
    · rfl
    · exact Channel.outlook_spawn family input .settled (Channel.coming_results _)
  have same := shows_iff (Channel.alike_carries threads) carries g capacity
  refine ⟨fun calls => ?_, fun seen => (same seen).symm⟩
  obtain ⟨run, last, runs, rfl⟩ := exists_runs (start g inline capacity) calls
  obtain ⟨seen, seeing, rfl⟩ := runs.shows
  exact ⟨seen, by simp, (same seen).1 seeing⟩

end Lexer

/-- The matches of a rule are tokens. -/
def Grammar.aOrAbc : Grammar String := .plain ⟨.aOrAbc, .pass id⟩ .nil

/-- The producer makes one step before the first pull, none before the second, and three before
the request to stop. -/
theorem Lexer.threaded_eq_inline_under_schedule :
    let scanner := Scanner.start (Grammar.automata .aOrAbc) (.ofString "aabcabc")
    let source : Scheduled := { channel := .spawn scanner, schedule := [1, 0, 3] }
    Shows (start .aOrAbc source 4) [
      (.peek 1, .peeked (.ok (some ⟨some 0, "abc", ⟨0, 1⟩, 0⟩)), ⟨2, "abc", ⟨0, 1⟩⟩),
      (.pop, .popped (some ⟨some 0, "abc", ⟨0, 1⟩, 0⟩), ⟨1, "a", {}⟩),
      (.lex, .token (some (.ok ⟨"a", {}⟩)), ⟨1, "a", {}⟩),
      (.stop, .stopped, ⟨0, "", {}⟩),
      (.lex, .token none, ⟨0, "", {}⟩)] := by
  intro scanner source
  let first : Lexer Inline String := start .aOrAbc ⟨scanner, false⟩ 4
  let popped := (first.peek 1).2.pop
  let lexed := popped.2.lex
  let again := lexed.2.stop.lex
  have seeing : Shows first [(.peek 1, .peeked (first.peek 1).1, (first.peek 1).2.view),
      (.pop, .popped popped.1, popped.2.view), (.lex, .token lexed.1, lexed.2.view),
      (.stop, .stopped, lexed.2.stop.view), (.lex, .token again.1, again.2.view)] :=
    .cons (.peek first 1) <| .cons (.pop _) <| .cons (.lex (lexes_iff.2 rfl)) <|
      .cons (.stop _) <| .cons (.lex (lexes_iff.2 rfl)) <| .nil _
  have peek_shows : (first.peek 1).1 = .ok (some ⟨some 0, "abc", ⟨0, 1⟩, 0⟩) ∧
      (first.peek 1).2.view = ⟨2, "abc", ⟨0, 1⟩⟩ := by decide +kernel
  have pop_shows : popped.1 = some ⟨some 0, "abc", ⟨0, 1⟩, 0⟩ ∧ popped.2.view = ⟨1, "a", {}⟩ := by
    decide +kernel
  have lex_shows : lexed.1 = some (.ok ⟨"a", {}⟩) ∧ lexed.2.view = ⟨1, "a", {}⟩ := by
    decide +kernel
  have stop_shows : lexed.2.stop.view = ⟨0, "", {}⟩ := by decide +kernel
  have end_shows : again.1 = none ∧ again.2.view = ⟨0, "", {}⟩ := by decide +kernel
  rw [peek_shows.1, peek_shows.2, pop_shows.1, pop_shows.2, lex_shows.1, lex_shows.2, stop_shows,
    end_shows.1, end_shows.2] at seeing
  have same := threaded_eq_inline Channel.threads_scheduled .aOrAbc (Grammar.automata .aOrAbc)
    (.ofString "aabcabc") 4 source rfl
  exact (same.2 _).2 seeing

end Munch
