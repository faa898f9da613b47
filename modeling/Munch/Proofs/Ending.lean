import Mathlib.Data.List.Basic
import Munch.Lexer.Moves
import Munch.Proofs.Lookahead

/-!
# The end of a lexer

A lexer pulls its source only while it is running, and each way to stop running is final. The
source may break every rule: it may go on behind its sentinel and behind an error, and it may
ignore a request to stop. The lexer does not notice, as it neither pulls again nor asks it to stop
a second time. An error may still come to light when the source has long ended, from a frame on
the stack; it is answered by the one request to stop.

Two kinds of end are told apart. When `lex` has no more to give, the frames that it has taken may
be on the stack still. When the lexer was given up, the stack is empty.

## Main definitions

* `Exchange.GoesOn`, `Recorded.Orderly`: the discipline towards the source.
* `Lexer.Obeys`: the invariant of every move.
* `Lexer.Over`, `Lexer.Spent`: nothing more comes from `lex`, or from any call.
* `Lexer.ends_for_good`: every end is final, in every run over every source.
-/

namespace Munch

/-- The exchange is a pull that brought a frame, and not the sentinel. -/
def Exchange.GoesOn : Exchange → Prop
  | .pulled (.ok (some f)) => f.isSentinel = false
  | _ => False

namespace Recorded

variable {σ : Type} {s t : Recorded σ} {answer : Except LexError (Option Frame)}

/-- A source is asked to stop at most once, and it is pulled only if everything before brought a
frame that is not the sentinel. -/
structure Orderly (s : Recorded σ) : Prop where
  once : s.stops ≤ 1
  pulled : s.history.Pairwise fun later earlier =>
    (∃ answer, later = .pulled answer) → earlier.GoesOn

/-- Everything that was asked of the source brought a frame that is not the sentinel. -/
def Open (s : Recorded σ) : Prop := ∀ x ∈ s.history, x.GoesOn

theorem Open.stops_eq (h : s.Open) : s.stops = 0 := by
  rw [stops, List.countP_eq_zero]
  intro x hx
  cases x with
  | pulled answer => simp
  | stopped => exact (h _ hx).elim

theorem Open.orderly (h : s.Open) : s.Orderly := by
  refine ⟨by rw [h.stops_eq]; exact Nat.zero_le 1, ?_⟩
  exact List.pairwise_of_forall_mem_list fun _ _ earlier he _ => h earlier he

variable [FrameSource σ]

theorem Open.pull (h : s.Open) (pulled : FrameSource.pull s = (answer, t)) :
    t.Orderly ∧ t.stops = 0 := by
  have silent : t.stops = 0 := by
    rw [stops, history_pull pulled]
    exact h.stops_eq
  refine ⟨⟨silent ▸ Nat.zero_le 1, ?_⟩, silent⟩
  rw [history_pull pulled]
  exact List.pairwise_cons.2 ⟨fun earlier he _ => h earlier he, h.orderly.pulled⟩

theorem Open.pull_frame {f : Frame} (h : s.Open)
    (pulled : FrameSource.pull s = (.ok (some f), t)) (more : f.isSentinel = false) : t.Open := by
  intro x hx
  rw [history_pull pulled] at hx
  obtain rfl | hx := List.mem_cons.1 hx
  · exact more
  · exact h x hx

theorem Orderly.stop (h : s.Orderly) (silent : s.stops = 0) : (FrameSource.stop s).Orderly := by
  constructor
  · rw [stops] at silent ⊢
    simp [FrameSource.stop, silent]
  · refine List.pairwise_cons.2 ⟨fun earlier _ pulled => ?_, h.pulled⟩
    obtain ⟨answer, impossible⟩ := pulled
    cases impossible

end Recorded

namespace Lexer

variable {σ K : Type} [FrameSource σ]

/-! ## The discipline towards the source -/

section Obeys

variable {l m : Lexer (Recorded σ) K}

/-- The source was treated orderly. It goes on while the lexer is running, it was not asked to stop
while there are frames on the stack, and only the last of these may be the sentinel. -/
structure Obeys (l : Lexer (Recorded σ) K) : Prop where
  orderly : l.source.Orderly
  going : l.status = .running → l.source.Open
  held : l.stack ≠ [] → l.source.stops = 0
  open_end : l.status = .running → ∀ e ∈ l.stack, e.frame.isSentinel = false
  last : l.stack.Pairwise fun e _ => e.frame.isSentinel = false

/-- A lexer that goes on did not pull the sentinel. -/
theorem more_of_running {f : Frame}
    (still : (if f.isSentinel then Status.drained else .running) = .running) :
    f.isSentinel = false := by
  cases last : f.isSentinel with
  | false => rfl
  | true => simp [last] at still

omit [FrameSource σ] in
theorem obeys_start (g : Grammar K) (source : σ) (capacity : Nat) :
    (start g ({ source } : Recorded σ) capacity).Obeys where
  orderly := ⟨Nat.zero_le 1, .nil⟩
  going _ _ hx := nomatch hx
  held h := absurd rfl h
  open_end _ _ he := nomatch he
  last := .nil

omit [FrameSource σ] in
/-- Frames may be taken from the stack. -/
theorem Obeys.of_sublist (h : l.Obeys) (stack : m.stack.Sublist l.stack)
    (source : m.source = l.source) (status : m.status = l.status) : m.Obeys where
  orderly := source ▸ h.orderly
  going running := by
    rw [source]
    exact h.going (status ▸ running)
  held some := by
    rw [source]
    apply h.held
    intro none
    exact some (List.sublist_nil.1 (none ▸ stack))
  open_end running e he := h.open_end (status ▸ running) e (stack.subset he)
  last := h.last.sublist stack

/-- A lexer is given up with a source that was not yet asked to stop. -/
theorem obeys_fail (orderly : l.source.Orderly) (silent : l.source.stops = 0) : l.fail.Obeys where
  orderly := orderly.stop silent
  going := nofun
  held h := absurd rfl h
  open_end := nofun
  last := .nil

omit [FrameSource σ] in
theorem Obeys.shift (h : l.Obeys) : l.shift.Obeys :=
  h.of_sublist l.stack_shift_suffix.sublist (source_shift l) (status_shift l)

theorem Obeys.extend (h : l.Obeys) : l.extend.2.Obeys := by
  have extended := extended_extend l
  generalize l.extend = result at extended ⊢
  cases extended with
  | halted => exact h
  | @ended t running pulled =>
    have ⟨orderly, silent⟩ := (h.going running).pull pulled
    exact ⟨orderly, nofun, fun _ => silent, nofun, h.last⟩
  | @pushed f t action scopes running pulled rule =>
    have fresh := h.open_end running
    have ⟨orderly, silent⟩ := (h.going running).pull pulled
    refine ⟨orderly, fun still => ?_, fun _ => silent, fun still e he => ?_, ?_⟩
    · exact (h.going running).pull_frame pulled (more_of_running still)
    · obtain he | he := List.mem_append.1 he
      · exact fresh e he
      · obtain rfl := List.mem_singleton.1 he
        exact more_of_running still
    · exact List.pairwise_append.2 ⟨h.last, List.pairwise_singleton _ _, fun e he _ _ => fresh e he⟩
  | lost running pulled _ source _ =>
    have ⟨orderly, silent⟩ := (h.going running).pull pulled
    exact obeys_fail (source ▸ orderly) (source ▸ silent)

theorem Obeys.take (h : l.Obeys) : l.take.Obeys := by
  rw [Lexer.take]
  cases stack : l.shift.stack with
  | nil => exact h.shift
  | cons e rest =>
    have consumed : Obeys { l.shift with consumed := true } :=
      h.shift.of_sublist (List.Sublist.refl _) rfl rfl
    rcases made : e.result? with _ | error | t
    · simp only [classify_of_none made]
      exact consumed
    · simp only [classify_of_error made]
      exact obeys_fail consumed.orderly (consumed.held (by simp [stack]))
    · simp only [classify_of_token made]
      exact consumed

theorem Obeys.stop (h : l.Obeys) : l.stop.Obeys := by
  rw [Lexer.stop]
  split
  · next running =>
    have going := h.going running
    exact {
      orderly := going.orderly.stop going.stops_eq
      going := by simp [discard]
      held := fun some => absurd rfl some
      open_end := by simp [discard]
      last := .nil }
  · exact h.of_sublist (List.nil_sublist _) rfl rfl

theorem Obeys.move (h : l.Obeys) (a : Move) : (l.move a).Obeys := by
  cases a with
  | shift => exact h.shift
  | extend => exact h.extend
  | take => exact h.take
  | look => exact h
  | pop => exact h.of_sublist (List.dropLast_sublist _) rfl rfl
  | stop => exact h.stop

theorem Obeys.moves (h : l.Obeys) (ms : List Move) : (l.moves ms).Obeys :=
  moves_induction (fun _ a h => h.move a) h ms

end Obeys

/-! ## Nothing comes any more -/

section Halted

variable {l m : Lexer σ K}

/-- No frame is left for `lex`. -/
structure Over (l : Lexer σ K) : Prop where
  halted : l.status ≠ .running
  taken : l.shift.stack = []

/-- No frame is left for any call. -/
structure Spent (l : Lexer σ K) : Prop where
  halted : l.status ≠ .running
  empty : l.stack = []

theorem extend_of_halted (h : l.status ≠ .running) : l.extend = (.ok false, l) := by
  simp [extend, pull, h]

theorem spent_fail (l : Lexer σ K) : l.fail.Spent := ⟨nofun, rfl⟩

theorem spent_stop (l : Lexer σ K) : l.stop.Spent := by
  rw [stop]
  split
  · exact ⟨by simp [discard], rfl⟩
  · next halted => exact ⟨halted, rfl⟩

omit [FrameSource σ] in
theorem Spent.over (h : l.Spent) : l.Over := by
  refine ⟨h.halted, ?_⟩
  rw [stack_shift, h.empty]
  split <;> rfl

theorem Spent.move (h : l.Spent) (a : Move) : (l.move a).Spent := by
  cases a with
  | shift => exact ⟨by simpa [Lexer.move] using h.halted, h.over.taken⟩
  | extend =>
    rw [Lexer.move, extend_of_halted h.halted]
    exact h
  | take =>
    rw [Lexer.move, take, h.over.taken]
    exact ⟨by simpa using h.halted, h.over.taken⟩
  | look => exact h
  | pop =>
    refine ⟨h.halted, ?_⟩
    rw [Lexer.move, pop, h.empty, List.dropLast_nil]
  | stop => exact spent_stop l

theorem Over.move (h : l.Over) (a : Move) : (l.move a).Over := by
  cases a with
  | shift =>
    refine ⟨by simpa [Lexer.move] using h.halted, ?_⟩
    rw [Lexer.move, shift_of_fresh (consumed_shift l), h.taken]
  | extend =>
    rw [Lexer.move, extend_of_halted h.halted]
    exact h
  | take =>
    rw [Lexer.move, take, h.taken]
    refine ⟨by simpa using h.halted, ?_⟩
    rw [shift_of_fresh (consumed_shift l), h.taken]
  | look => exact h
  | pop =>
    refine ⟨h.halted, ?_⟩
    rw [Lexer.move, stack_shift_pop, h.taken, List.dropLast_nil]
  | stop => exact (spent_stop l).over

theorem Over.turn (h : l.Over) : l.turn = (some none, l.shift) := by
  have halted : l.shift.status ≠ .running := by simpa using h.halted
  rw [Lexer.turn, h.taken, extend_of_halted halted]

theorem extendBy_of_halted (h : l.status ≠ .running) (n : Nat) :
    l.extendBy n = (.ok (n == 0), l) := by
  cases n with
  | zero => rfl
  | succ n => rw [extendBy, extend_of_halted h]; rfl

theorem Spent.peek (h : l.Spent) {level : Nat} (room : level < l.capacity) :
    (l.peek level).1 = .ok none := by
  have there : ¬l.capacity ≤ level := by omega
  rw [Lexer.peek, if_neg there, extendBy_of_halted h.halted]
  simp [h.empty]

end Halted

/-! ## What ends a lexer -/

section Ends

variable {l m : Lexer σ K} {e : Entry K} {error : LexError}

theorem spent_of_extend (h : l.extend = (.error error, m)) : m.Spent := by
  have extended := extended_extend l
  rw [h] at extended
  cases extended with
  | lost => exact spent_fail _

theorem over_of_extend (h : l.shift.extend = (.ok false, m)) (empty : l.shift.stack = []) :
    m.Over := by
  have extended := extended_extend l.shift
  rw [h] at extended
  cases extended with
  | halted halted => exact ⟨halted, by rw [shift_of_fresh (consumed_shift l), empty]⟩
  | ended =>
    refine ⟨nofun, ?_⟩
    rw [stack_shift]
    simp [empty]

theorem spent_of_extendBy {n : Nat} (h : l.extendBy n = (.error error, m)) : m.Spent := by
  induction n generalizing l with
  | zero => cases h
  | succ n ih =>
    rw [extendBy] at h
    rcases extended : l.extend with ⟨_ | _ | _, k⟩
    · rw [extended] at h
      cases h
      exact spent_of_extend extended
    · rw [extended] at h
      cases h
    · rw [extended] at h
      exact ih h

theorem spent_of_peek {level : Nat} (room : level < l.capacity)
    (h : (l.peek level).1 = .error error) : (l.peek level).2.Spent := by
  have there : ¬l.capacity ≤ level := by omega
  rw [peek, if_neg there] at h ⊢
  rcases extended : l.extendBy (level + 1 - l.stack.length) with ⟨_ | _, k⟩
  · exact spent_of_extendBy extended
  · rw [extended] at h
    cases h

theorem spent_of_classify (h : l.classify e = (some (some (.error error)), m)) : m.Spent := by
  have made := result_of_classify (congrArg Prod.fst h)
  rw [classify_of_error made] at h
  cases h
  exact spent_fail _

theorem sentinel_of_classify (h : l.classify e = (some none, m)) :
    e.frame.isSentinel = true ∧ m = { l with consumed := true } := by
  rcases made : e.result? with _ | x | t
  · rw [classify_of_none made] at h
    split at h
    · next sentinel =>
      cases h
      exact ⟨sentinel.2, rfl⟩
    · cases h
  · rw [classify_of_error made] at h
    cases h
  · rw [classify_of_token made] at h
    cases h

theorem spent_of_turn (h : l.turn = (some (some (.error error)), m)) : m.Spent := by
  have finds := finds_turn l
  generalize turned : l.turn = result at finds
  rw [h] at turned
  cases finds with
  | held => exact spent_of_classify turned.symm
  | pulled => exact spent_of_classify turned.symm
  | ended => cases turned
  | lost _ extended =>
    cases turned
    exact spent_of_extend extended

/-- A call that gives the lexer up leaves no frames. -/
theorem spent_of_makes {c : Call} {r : Reply K} {ms : List Move}
    (finishes : c.Finishes l.capacity r) (makes : Makes l c r ms m) : m.Spent := by
  cases makes with
  | lex skips turned =>
    cases finishes with
    | lex => exact spent_of_turn turned
  | peek level =>
    generalize peeked : (l.peek level).1 = result at finishes
    cases finishes with
    | peek error room => exact spent_of_peek room peeked
  | pop => cases finishes
  | stop => exact spent_stop l

/-- What no move takes away holds behind a call that brings it about. -/
theorem final_of_runs {P Q : Lexer σ K → Prop} {c : Call} {r : Reply K}
    {run : List (Call × Reply K)} (final : ∀ l a, P l → P (l.move a))
    (stays : ∀ l a, Q l → Q (l.move a))
    (ends : ∀ l ms m, Q l → Makes l c r ms m → P m) (begins : Q l) (runs : Runs l run m)
    (called : (c, r) ∈ run) : P m := by
  induction runs with
  | nil => cases called
  | @cons l k n _ _ rest performs after ih =>
    obtain ⟨ms, makes⟩ := exists_makes performs
    rcases List.mem_cons.1 called with here | later
    · cases here
      obtain ⟨more, traces⟩ := exists_traces after
      rw [← traces.moves_eq]
      exact moves_induction final (ends l ms k begins makes) more
    · apply ih _ later
      rw [← makes.moves_eq]
      exact moves_induction stays begins ms

end Ends

section Obeys

variable {l m : Lexer (Recorded σ) K} {e : Entry K} {rest : List (Entry K)}

/-- The sentinel is the last frame. -/
theorem Obeys.over_of_classify (h : l.Obeys) (stack : l.stack = e :: rest)
    (classified : l.classify e = (some none, m)) : m.Over := by
  obtain ⟨sentinel, rfl⟩ := sentinel_of_classify classified
  constructor
  · intro running
    have more := h.open_end running e (by simp [stack])
    rw [sentinel] at more
    cases more
  · have last := h.last
    rw [stack] at last
    have nothing_behind := (List.pairwise_cons.1 last).1
    rw [stack_shift]
    simp only [↓reduceIte, stack, List.tail_cons]
    apply List.eq_nil_iff_forall_not_mem.2
    intro next there
    have more := nothing_behind next there
    rw [sentinel] at more
    cases more

theorem Obeys.over_of_turn (h : l.Obeys) {r : Option (Except LexError (Token K))}
    (turned : l.turn = (some r, m)) (last : ∀ t, r ≠ some (.ok t)) : m.Over := by
  rcases r with _ | error | t
  · have finds := finds_turn l
    generalize turned' : l.turn = result at finds
    rw [turned] at turned'
    cases finds with
    | held stack => exact h.shift.over_of_classify stack turned'.symm
    | pulled _ extended stack =>
      have pulled := h.shift.extend
      rw [extended] at pulled
      exact pulled.over_of_classify stack turned'.symm
    | ended empty extended =>
      cases turned'
      exact over_of_extend extended empty
    | lost => cases turned'
  · exact (spent_of_turn turned).over
  · exact absurd rfl (last t)

theorem Obeys.over_of_makes (h : l.Obeys) {r : Option (Except LexError (Token K))}
    {ms : List Move} (makes : Makes l .lex (.token r) ms m) (last : ∀ t, r ≠ some (.ok t)) :
    m.Over := by
  cases makes with
  | lex skips turned =>
    apply Obeys.over_of_turn _ turned last
    rw [← skips.moves_eq]
    exact h.moves _

end Obeys

/-- In every run over every source, also in the midst of a call of `lex` that may never return, the
source is asked to stop at most once, and pulled only if everything before brought a frame that is
not the sentinel. Once `lex` has returned without a token, it returns with nothing. Once the lexer
was given up, no call finds a frame. -/
theorem ends_for_good (g : Grammar K) (source : σ) (capacity : Nat) {run : List (Call × Reply K)}
    {l : Lexer (Recorded σ) K} (runs : Runs (start g { source } capacity) run l) :
    (∀ ms m, Skips l ms m → m.source.Orderly) ∧
    (∀ r, (.lex, .token r) ∈ run → (∀ t, r ≠ some (.ok t)) → ∃ m, Lexes l none m) ∧
    ∀ c r, (c, r) ∈ run → c.Finishes capacity r →
      l.depth = 0 ∧ l.pop.1 = none ∧ ∀ level < capacity, (l.peek level).1 = .ok none := by
  have begins := obeys_start g source capacity
  obtain ⟨before, traces⟩ := exists_traces runs
  refine ⟨fun ms m skips => ?_, fun r called last => ?_, fun c r called finishes => ?_⟩
  · rw [← skips.moves_eq, ← traces.moves_eq, ← moves_append]
    exact (begins.moves _).orderly
  · have nothing : l.Over := by
      apply final_of_runs (fun _ a h => h.move a) (fun _ a h => h.move a) _ begins runs called
      intro k ms m obeys makes
      exact obeys.over_of_makes makes last
    exact ⟨_, .result nothing.turn⟩
  · have same : l.capacity = capacity := by
      rw [← traces.moves_eq, capacity_moves]
      rfl
    have spent : l.Spent := by
      apply final_of_runs (Q := fun k => k.capacity = capacity) (fun _ a h => h.move a)
        (fun k a h => ?_) (fun k ms m h makes => ?_) rfl runs called
      · rw [capacity_move, h]
      · rw [← h] at finishes
        exact spent_of_makes finishes makes
    refine ⟨?_, ?_, fun level room => spent.peek (same ▸ room)⟩
    · rw [depth, spent.empty, List.length_nil]
    · rw [pop, top?, spent.empty, List.getLast?_nil, Option.map_none]

/-- The sentinel is on the stack when a name before it turns out to be missing from its table, and
then a stop is requested all the same. -/
theorem ends_for_good_behind_sentinel :
    let first : Lexer (Recorded Script) String := start .bracketed { source := .bracketed } 8
    ∃ last, Runs first [(.peek 6, .peeked (.ok (some (.ending ⟨0, 6⟩ 0)))),
        (.lex, .token (some (.ok ⟨"x", ⟨0, 2⟩⟩))), (.lex, .token (some (.ok ⟨"function", ⟨0, 4⟩⟩))),
        (.lex, .token (some (.error (.unknownLexeme "name" "g" ⟨0, 5⟩)))),
        (.stop, .stopped)] last ∧
      last.source.pulls = 7 ∧ last.source.stops = 1 ∧ last.source.Orderly ∧
      (∃ m, Lexes last none m) ∧
      last.depth = 0 ∧ last.pop.1 = none ∧ ∀ level < 8, (last.peek level).1 = .ok none := by
  intro first
  have peeked : (first.peek 6).1 = .ok (some (.ending ⟨0, 6⟩ 0)) := by decide +kernel
  have lexed : (first.peek 6).2.lex.1 = some (.ok ⟨"x", ⟨0, 2⟩⟩) := by decide +kernel
  have again : (first.peek 6).2.lex.2.lex.1 = some (.ok ⟨"function", ⟨0, 4⟩⟩) := by decide +kernel
  have failed : (first.peek 6).2.lex.2.lex.2.lex.1 =
      some (.error (.unknownLexeme "name" "g" ⟨0, 5⟩)) := by decide +kernel
  have asked : (first.peek 6).2.lex.2.lex.2.lex.2.stop.source.pulls = 7 ∧
      (first.peek 6).2.lex.2.lex.2.lex.2.stop.source.stops = 1 := by decide +kernel
  have runs : Runs first [(.peek 6, .peeked (first.peek 6).1),
      (.lex, .token (first.peek 6).2.lex.1), (.lex, .token (first.peek 6).2.lex.2.lex.1),
      (.lex, .token (first.peek 6).2.lex.2.lex.2.lex.1), (.stop, .stopped)] _ :=
    .cons (.peek first 6) <| .cons (.lex (lexes_iff.2 rfl)) <| .cons (.lex (lexes_iff.2 rfl)) <|
      .cons (.lex (lexes_iff.2 rfl)) <| .cons (.stop _) (.nil _)
  rw [peeked, lexed, again, failed] at runs
  obtain ⟨orderly, ended, gave_up⟩ := ends_for_good .bracketed Script.bracketed 8 runs
  refine ⟨_, runs, asked.1, asked.2, orderly [] _ (.refl _), ?_, ?_⟩
  · exact ended (some (.error (.unknownLexeme "name" "g" ⟨0, 5⟩))) (by simp) (by simp)
  · exact gave_up .stop .stopped (by simp) .stop

end Lexer

end Munch
