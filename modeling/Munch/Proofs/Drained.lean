import Munch.Lexer.Reading
import Munch.Proofs.Coverage
import Munch.Proofs.Listing

/-!
# The tokens of a text are read off its frames

Over a text a lexer that only makes tokens pulls one frame after another from its scanner, and what
the scanner has still to give is known beforehand. Each turn takes the first of these frames, and
its rule is found under the grammars that are open then. So all tokens of a text can be read off
the listing of its frames, without stack and scanner.

## Main definitions

* `Lexer.Spends`: what a turn makes of the first frame to come.
* `Lexer.drain_of_text`: all tokens of a text.
-/

namespace Munch

variable {K : Type}

/-- The sentinel closes the last pass. -/
theorem Scanner.passes_of_sentinel {s t : Scanner} {f : Frame}
    (h : s.next false = (some (.ok f), t)) (last : f.isSentinel = true) : t.passes = [] := by
  obtain ⟨p, around, -, ⟨m, q, left, -, rfl, -⟩ | ⟨pos, rfl, passes⟩⟩ := passes_of_next_frame h
  · cases last
  · have outermost : around.length = 0 := by
      simpa [Frame.isSentinel, Frame.isEnd, Frame.ending] using last
    rw [passes, List.length_eq_zero_iff.1 outermost]

namespace Lexer

variable {l m : Lexer Inline K} {e : Entry K} {es : List (Entry K)}

/-- The frames still to come, with what becomes of them. -/
def owed (l : Lexer Inline K) : Option (List (Entry K)) :=
  entries? l.scopes l.source.scanner.pending

/-- A turn spends the first frame to come. -/
inductive Spends (e : Entry K) (es : List (Entry K)) :
    Option (Option (Except LexError (Token K))) × Lexer Inline K → Prop where
  | skip {m : Lexer Inline K} : e.result? = none → Draining none m → m.owed = some es →
    Spends e es (none, m)
  | token {m : Lexer Inline K} {t : Token K} : e.result? = some (.ok t) → Draining none m →
    m.owed = some es → Spends e es (some (some (.ok t)), m)
  | ended {m : Lexer Inline K} : e.result? = none → es = [] → Spends e es (some none, m)

/-- A scanner with passes under way has a frame to give over a text, and the rule of that frame
makes the first entry. -/
theorem Draining.next_frame (h : Draining none l) :
    ∃ f t, l.source.scanner.next false = (some (.ok f), t) ∧
      l.source.scanner.pending = f :: t.pending := by
  obtain ⟨sound, -⟩ := h.coherent h.running
  have handed := sound.handsOut h.going
  obtain ⟨none, -⟩ | more := Scanner.pending_next sound h.failure_eq
  · rw [none] at handed
    cases handed
  · exact more

theorem Draining.spends (h : Draining none l) (owed : l.owed = some (e :: es)) :
    Spends e es l.turn := by
  obtain ⟨f, t, called, first⟩ := h.next_frame
  have kept := h.shift.pull
  have same : l.shift.source.scanner.next false = (some (.ok f), t) := by rwa [source_shift]
  obtain ⟨action, scopes, rule, made, -, pulled⟩ := h.shift.pull_frame same
  rw [scopes_shift] at rule
  simp only [Lexer.owed, first, entries?, rule, Option.bind_eq_bind, Option.bind_some,
    Option.pure_def, Option.bind_eq_some_iff, Option.some.injEq, List.cons.injEq] at owed
  obtain ⟨_, rest, rfl, rfl⟩ := owed
  have room := h.shift.room
  rw [Lexer.turn, h.taken]
  dsimp only
  rw [Lexer.extend, pulled]
  rw [pulled] at kept
  simp only [h.taken, List.length_nil, room, if_true, List.nil_append]
  cases kept with
  | entry _ more _ going =>
    have going := going.consume ⟨f, action⟩
    rcases found : (Entry.mk f action).result? with _ | error | token
    · rw [classify_of_none found, if_neg (by simp [more])]
      exact .skip found going rest
    · exact absurd found (made.result? h.shift.covered error)
    · rw [classify_of_token found]
      exact .token found going rest
  | sentinel _ last =>
    have silent : action = none := made.action_of_sentinel last
    have nothing : (Entry.mk f action).result? = none := by rw [Entry.result?, silent]
    rw [classify_of_none nothing, if_pos ⟨by simp [silent], last⟩]
    refine .ended nothing ?_
    have behind : t.pending = [] := by
      rw [Scanner.pending, Scanner.passes_of_sentinel called last]
      rfl
    rw [behind] at rest
    cases rest
    rfl

/-- A call of `lex` that comes to the same leaves the same tokens. -/
theorem drain_congr (same : l.lex = m.lex) : l.drain = m.drain := by
  rcases lexed : m.lex with ⟨_ | e | t, n⟩
  · rw [drain_of_end lexed, drain_of_end (same.trans lexed)]
  · rw [drain_of_error lexed, drain_of_error (same.trans lexed)]
  · rw [drain_of_token lexed, drain_of_token (same.trans lexed)]

theorem Draining.reading (h : Draining none l) (owed : l.owed = some es) :
    l.drain.1 = reading es := by
  induction es generalizing l with
  | nil =>
    obtain ⟨f, t, -, first⟩ := h.next_frame
    simp [Lexer.owed, first, entries?, Option.bind_eq_some_iff] at owed
  | cons e es ih =>
    have spends := h.spends owed
    generalize turned : l.turn = turn at spends
    cases spends with
    | skip nothing going rest =>
      rw [drain_congr (lex_of_skip turned), ih going rest, reading_of_none nothing]
    | token made going rest =>
      rw [drain_of_token (lex_of_result turned), ih going rest, reading_of_token made]
    | ended nothing last =>
      rw [drain_of_end (lex_of_result turned), reading_of_none nothing, last]
      rfl

/-- All tokens of a text under a covered grammar are read off the listing of its frames. -/
theorem drain_of_text {g : Grammar K} (covered : g.Covered) (text : String) {capacity : Nat}
    (room : 0 < capacity) {es : List (Entry K)}
    (ruled : entries? [g] (g.automata.listing text.toList {} 0) = some es) :
    let first : Lexer Inline K :=
      start g ⟨Scanner.start g.automata (.ofString text), false⟩ capacity
    first.drain.1 = reading es := by
  intro first
  have begins : Draining none first := draining_start covered (.ofString text) room
  apply begins.reading
  rw [owed, ← ruled, ← Scanner.pending_start]
  rfl

end Lexer

end Munch
