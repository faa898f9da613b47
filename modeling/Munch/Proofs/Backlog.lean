import Munch.Proofs.Coverage
import Munch.Proofs.Stop

/-!
# What a lexer still gives when its scanner is told to stop

The scanner may be told to stop behind the back of its lexer, while frames wait on the stack and
passes are open. A scanner that was told gives the sentinel or nothing, so at most one more frame
comes to the stack, and it is the last one to come. The frames that waited are still served: `lex`
takes them from the front, and `pop` drops them from the back. When they are used up, `lex` finds
nothing for ever.

## Main definitions

* `Lexer.Serving`: a call of `lex` that is answered from waiting entries alone.
* `Lexer.LivesOff`: calls that are answered from waiting entries and the sentinel.
* `Lexer.Inherits`: the stack holds what is left of an earlier one, and at most the sentinel.
* `Lexer.Poised`: the invariant of a lexer over the scanner of a text.
* `Lexer.backlog_served`: every run after the request, which comes at any time.
-/

namespace Munch

namespace Scanner

variable {s t : Scanner}

/-- Of a text that can be read to its end, a scanner that was told to stop gives at most the
sentinel. -/
theorem Sound.next_true (sound : s.Sound) (readable : s.input.failure = none) :
    (s.next true).1 = none ∨ ∃ pos, (s.next true).1 = some (.ok (.ending pos 0)) := by
  rcases called : (s.next true).1 with _ | item
  · exact .inl rfl
  · obtain ⟨free, closes⟩ := next_true_eq_some_iff.1 called
    cases closes with
    | sentinel pos => exact .inr ⟨pos, rfl⟩
    | failure e =>
      have going : s.passes ≠ [] := by
        intro ended
        obtain ⟨input, passes⟩ := s
        cases ended
        cases free
      have handed := sound.handsOut going
      rcases given : s.next false with ⟨item, t⟩
      rw [given] at free handed
      cases free
      cases handed with
      | failure failing =>
        rw [readable] at failing
        cases failing

end Scanner

/-- The entry of the sentinel. -/
def Entry.IsSentinel {K : Type} (e : Entry K) : Prop := ∃ pos, e = ⟨.ending pos 0, none⟩

theorem Entry.IsSentinel.result? {K : Type} {e : Entry K} (h : e.IsSentinel) :
    e.result? = none := by
  obtain ⟨pos, rfl⟩ := h
  rfl

namespace Lexer

variable {K : Type} {l m n : Lexer Inline K} {e : Entry K} {ahead after rest : List (Entry K)}
  {r : Option (Except LexError (Token K))} {run : List (Call × Reply K)}

/-! ## Living off what waits -/

/-- A call of `lex` is answered from waiting entries alone, and leaves others. -/
inductive Serving : List (Entry K) → Option (Except LexError (Token K)) → List (Entry K) → Prop where
  | token {e : Entry K} {rest : List (Entry K)} {t : Token K} :
    e.result? = some (.ok t) → Serving (e :: rest) (some (.ok t)) rest
  /-- Behind an error nothing is served any more. -/
  | error {e : Entry K} {rest : List (Entry K)} {error : LexError} :
    e.result? = some (.error error) → Serving (e :: rest) (some (.error error)) []
  | silent {e : Entry K} {ahead after : List (Entry K)}
    {r : Option (Except LexError (Token K))} :
    e.result? = none → Serving ahead r after → Serving (e :: ahead) r after
  | ended : Serving [] none []

/-- Calls are answered from waiting entries. The sentinel may still come to them, if one looks
for it. -/
inductive LivesOff : List (Entry K) → List (Call × Reply K) → Prop where
  | nil (ahead : List (Entry K)) : LivesOff ahead []
  | lex {ahead after : List (Entry K)} {r : Option (Except LexError (Token K))}
    {run : List (Call × Reply K)} :
    Serving ahead r after → LivesOff after run → LivesOff ahead ((.lex, .token r) :: run)
  | peek {ahead : List (Entry K)} {level : Nat} {reply : Except LexError (Option Frame)}
    {run : List (Call × Reply K)} (late : Option (Entry K)) : (∀ e ∈ late, e.IsSentinel) →
    LivesOff (ahead ++ late.toList) run → LivesOff ahead ((.peek level, .peeked reply) :: run)
  | pop {ahead : List (Entry K)} {reply : Option Frame} {run : List (Call × Reply K)} :
    (∀ e ∈ ahead.getLast?, reply = some e.frame) → LivesOff ahead.dropLast run →
    LivesOff ahead ((.pop, .popped reply) :: run)

/-- The frames that calls of `pop` gave back, in order. -/
def poppedOf (run : List (Call × Reply K)) : List Frame :=
  run.filterMap fun
    | (_, .popped frame) => frame
    | _ => none

/-- Entries at the back are served only if they are not dropped before. -/
theorem Serving.of_append {served dropped : List (Entry K)} (h : Serving ahead r after)
    (left : after = served ++ dropped) :
    ∃ first, ahead = first ++ dropped ∧
      ∀ results, Fills served true results → Fills first true (r :: results) := by
  induction h with
  | @token e rest t token =>
    exact ⟨e :: served, by rw [left, List.cons_append],
      fun results fills => (fills_of_token token).2 ⟨rfl, fills⟩⟩
  | @error e rest error failed =>
    obtain ⟨rfl, rfl⟩ := List.append_eq_nil_iff.1 left.symm
    exact ⟨e :: rest, (List.append_nil _).symm,
      fun results fills => (fills_of_error failed).2 ⟨rfl, fills⟩⟩
  | @silent e _ _ _ none _ ih =>
    obtain ⟨first, rfl, fills⟩ := ih left
    exact ⟨e :: first, rfl, fun results more => (fills_of_none none).2 (fills results more)⟩
  | ended =>
    obtain ⟨rfl, rfl⟩ := List.append_eq_nil_iff.1 left.symm
    exact ⟨[], rfl, fun results fills => fills_end.2 ⟨rfl, fills⟩⟩

theorem fills_append_of_silent {more : List (Entry K)} (silent : ∀ e ∈ more, e.result? = none)
    (results : List (Option (Except LexError (Token K)))) :
    Fills (ahead ++ more) true results ↔ Fills ahead true results := by
  have nothing : more.filterMap Entry.result? = [] := List.filterMap_eq_nil_iff.2 silent
  rw [Fills, Fills, reading, List.filterMap_append, nothing, List.append_nil, reading]

/-- The results of `lex` are those of the entries that were not dropped from the back, in order,
and then nothing for ever. -/
theorem LivesOff.exists_served (h : LivesOff ahead run) :
    ∃ served dropped, ahead = served ++ dropped ∧
      (dropped.map (·.frame)).reverse.Sublist (poppedOf run) ∧ Fills served true (lexed run) := by
  induction h with
  | nil ahead =>
    exact ⟨ahead, [], (List.append_nil _).symm, List.nil_sublist _, fills_nil _ _⟩
  | lex serving _ ih =>
    obtain ⟨served, dropped, left, popped, fills⟩ := ih
    obtain ⟨first, rfl, more⟩ := serving.of_append left
    exact ⟨first, dropped, rfl, popped, more _ fills⟩
  | @peek ahead _ _ _ late last _ ih =>
    obtain ⟨served, dropped, left, popped, fills⟩ := ih
    obtain ⟨silent, rfl, split⟩ | ⟨dropped, rfl, rfl⟩ := List.append_eq_append_iff.1 left
    · -- Only the sentinel is dropped, or nothing.
      refine ⟨ahead, [], (List.append_nil _).symm, List.nil_sublist _, ?_⟩
      refine (fills_append_of_silent (fun e he => (last e ?_).result?) _).1 fills
      exact Option.mem_toList.1 (split ▸ List.mem_append_left _ he)
    · refine ⟨served, dropped, rfl, List.Sublist.trans ?_ popped, fills⟩
      rw [List.map_append, List.reverse_append]
      exact List.sublist_append_right _ _
  | @pop ahead _ _ top _ ih =>
    obtain ⟨served, dropped, left, popped, fills⟩ := ih
    rcases List.eq_nil_or_concat ahead with rfl | ⟨front, e, rfl⟩
    · obtain ⟨rfl, rfl⟩ := List.append_eq_nil_iff.1 left.symm
      exact ⟨[], [], rfl, List.nil_sublist _, fills⟩
    · rw [List.concat_eq_append] at top left ⊢
      rw [List.dropLast_concat] at left
      obtain rfl := top e (by simp)
      refine ⟨served, dropped ++ [e], by rw [left, List.append_assoc], ?_, fills⟩
      rw [List.map_append, List.reverse_append]
      exact popped.cons_cons _

/-! ## The lexer before and after the request -/

/-- A lexer over the scanner of a text that can be read to its end. Only the last frame on its stack
may be the sentinel, and then the lexer does not pull any more. -/
structure Poised (l : Lexer Inline K) : Prop where
  room : 0 < l.capacity
  sound : l.status = .running → l.source.scanner.Sound
  readable : l.status = .running → l.source.scanner.input.failure = none
  held : l.consumed = true → l.stack ≠ []
  open_end : l.status = .running → ∀ e ∈ l.stack, e.frame.isSentinel = false
  last : l.stack.Pairwise fun e _ => e.frame.isSentinel = false

theorem poised_start (g : Grammar K) (text : String) {capacity : Nat} (room : 0 < capacity) :
    (start g ⟨Scanner.start g.automata (.ofString text), false⟩ capacity).Poised where
  room := room
  sound _ := Scanner.sound_start _ _
  readable _ := rfl
  held := nofun
  open_end _ _ he := nomatch he
  last := .nil

/-- Frames may be taken from the stack. -/
theorem Poised.of_sublist (h : l.Poised) (stack : m.stack.Sublist l.stack)
    (held : m.consumed = true → m.stack ≠ []) (source : m.source = l.source)
    (status : m.status = l.status) (capacity : m.capacity = l.capacity) : m.Poised where
  room := capacity ▸ h.room
  sound := by
    rw [source, status]
    exact h.sound
  readable := by
    rw [source, status]
    exact h.readable
  held := held
  open_end running e he := h.open_end (status ▸ running) e (stack.subset he)
  last := h.last.sublist stack

/-- A lexer that was given up. -/
theorem poised_of_spent (room : 0 < l.capacity) (spent : l.Spent) (fresh : l.consumed = false) :
    l.Poised where
  room := room
  sound running := absurd running spent.halted
  readable running := absurd running spent.halted
  held consumed := by simp [fresh] at consumed
  open_end running := absurd running spent.halted
  last := spent.empty ▸ .nil

theorem Poised.shift (h : l.Poised) : l.shift.Poised :=
  h.of_sublist l.stack_shift_suffix.sublist (fun consumed => by simp at consumed)
    (source_shift l) (status_shift l) (capacity_shift l)

theorem Poised.extend (h : l.Poised) : l.extend.2.Poised := by
  have extended := extended_extend l
  generalize l.extend = result at extended ⊢
  cases extended with
  | halted => exact h
  | ended => exact { h with sound := nofun, readable := nofun, open_end := nofun }
  | @pushed f t action scopes running pulled rule =>
    have fresh := h.open_end running
    obtain ⟨s, handed, rfl⟩ := Inline.frame_of_pull pulled
    obtain ⟨sound, kept⟩ := Scanner.sound_next (h.sound running) l.source.raised
    rw [handed] at sound kept
    exact {
      room := h.room
      sound := fun _ => sound
      readable := fun _ => kept.trans (h.readable running)
      held := fun _ => by simp
      open_end := fun still e he => by
        obtain he | he := List.mem_append.1 he
        · exact fresh e he
        · obtain rfl := List.mem_singleton.1 he
          exact more_of_running still
      last := List.pairwise_append.2
        ⟨h.last, List.pairwise_singleton _ _, fun e he _ _ => fresh e he⟩ }
  | @lost _ _ m _ _ _ _ _ capacity =>
    exact poised_of_spent (capacity ▸ h.room) (spent_fail m) rfl

theorem Poised.take (h : l.Poised) : l.take.Poised := by
  rw [Lexer.take]
  cases stack : l.shift.stack with
  | nil => exact h.shift
  | cons e rest =>
    have consumed : Poised { l.shift with consumed := true } :=
      h.shift.of_sublist (List.Sublist.refl _) (fun _ => by simp [stack]) rfl rfl rfl
    dsimp only
    rw [classify_eq]
    split
    · exact consumed
    · exact poised_of_spent consumed.room (spent_fail _) rfl
    · exact consumed

theorem Poised.pop (h : l.Poised) : l.pop.2.Poised := by
  refine h.of_sublist (List.dropLast_sublist _) (fun consumed none => ?_) rfl rfl rfl
  simp only [Lexer.pop, Bool.and_eq_true, bne_iff_ne] at consumed none
  have some := List.length_pos_iff.2 (h.held consumed.1)
  have one := congrArg List.length none
  rw [List.length_dropLast, List.length_nil] at one
  omega

theorem Poised.stop (h : l.Poised) : l.stop.Poised := by
  have fresh : l.stop.consumed = false := by
    rw [Lexer.stop]
    split <;> rfl
  exact poised_of_spent (capacity_move l .stop ▸ h.room) (spent_stop l) fresh

theorem Poised.move (h : l.Poised) (a : Move) : (l.move a).Poised := by
  cases a with
  | shift => exact h.shift
  | extend => exact h.extend
  | take => exact h.take
  | look => exact h
  | pop => exact h.pop
  | stop => exact h.stop

theorem Poised.moves (h : l.Poised) (ms : List Move) : (l.moves ms).Poised :=
  moves_induction (fun _ a h => h.move a) h ms

/-- The request to stop is not taken back. -/
def Told (l : Lexer Inline K) : Prop := l.source.raised = true

theorem raised_of_pull {s t : Inline} {answer : Except LexError (Option Frame)}
    (h : FrameSource.pull s = (answer, t)) : t.raised = s.raised := by
  simp only [FrameSource.pull, Inline.pull] at h
  split at h <;> cases h <;> rfl

theorem Told.move (h : l.Told) (a : Move) : (l.move a).Told := by
  cases a with
  | shift => rwa [Lexer.move, Told, source_shift]
  | extend =>
    have extended := extended_extend l
    rw [Lexer.move]
    generalize l.extend = result at extended ⊢
    cases extended with
    | halted => exact h
    | ended _ pulled => exact (raised_of_pull pulled).trans h
    | pushed _ pulled => exact (raised_of_pull pulled).trans h
    | lost => rfl
  | take =>
    have shifted : l.shift.Told := by rwa [Told, source_shift]
    rw [Lexer.move, Lexer.take]
    split
    · rw [classify_eq]
      split
      · exact shifted
      · rfl
      · exact shifted
    · exact shifted
  | look => exact h
  | pop => exact h
  | stop =>
    rw [Lexer.move, Lexer.stop]
    split
    · rfl
    · exact h

theorem Told.moves (h : l.Told) (ms : List Move) : (l.moves ms).Told :=
  moves_induction (fun _ a h => h.move a) h ms

/-! ## After the request -/

/-- A pull after the request brings nothing, or the sentinel. -/
theorem Poised.pull_of_told (h : l.Poised) (told : l.Told) (running : l.status = .running)
    {answer : Except LexError (Option Frame)} {t : Inline}
    (pulled : FrameSource.pull l.source = (answer, t)) :
    answer = .ok none ∨ ∃ pos, answer = .ok (some (.ending pos 0)) := by
  have given := (h.sound running).next_true (h.readable running)
  simp only [FrameSource.pull, Inline.pull, show l.source.raised = true from told] at pulled
  rcases called : l.source.scanner.next true with ⟨_ | item, s⟩
  · rw [called] at pulled
    cases pulled
    exact .inl rfl
  · rw [called] at given pulled
    obtain none | ⟨pos, some⟩ := given
    · cases none
    · cases some
      cases pulled
      exact .inr ⟨pos, rfl⟩

/-- What pulling onto the stack comes to after the request. Behind it nothing is pulled. -/
inductive Late (l : Lexer Inline K) : Except LexError Bool × Lexer Inline K → Prop where
  | nothing {m : Lexer Inline K} : m.stack = l.stack → m.consumed = l.consumed →
    m.status ≠ .running → Late l (.ok false, m)
  | sentinel {m : Lexer Inline K} {e : Entry K} : e.IsSentinel → m.stack = l.stack ++ [e] →
    m.consumed = l.consumed → m.status ≠ .running → Late l (.ok true, m)

theorem Poised.late (h : l.Poised) (told : l.Told) (room : l.stack.length < l.capacity) :
    l.Late l.extend := by
  by_cases running : l.status = .running
  · rcases pulled : FrameSource.pull l.source with ⟨answer, t⟩
    obtain rfl | ⟨pos, rfl⟩ := h.pull_of_told told running pulled
    · have extended : l.extend = (.ok false, { l with source := t, status := .stopped }) := by
        simp only [Lexer.extend, Lexer.pull, if_pos running, pulled]
      rw [extended]
      exact .nothing rfl rfl (by simp)
    · have rule := resolve?_of_end (f := .ending pos 0) rfl l.scopes
      have last : l.pull = (.ok (some ⟨.ending pos 0, none⟩),
          { l with source := t, scopes := l.scopes.take 1, status := .drained }) := by
        rw [Lexer.pull, if_pos running, pulled]
        simp only [rule]
        rfl
      rw [Lexer.extend, last]
      simp only [if_pos room]
      exact .sentinel ⟨pos, rfl⟩ rfl rfl (by simp)
  · rw [extend_of_halted running]
    exact .nothing rfl rfl running

/-- Looking ahead after the request brings at most the sentinel. -/
theorem Poised.late_peek (h : l.Poised) (told : l.Told) (level : Nat) :
    ∃ late : Option (Entry K), (∀ e ∈ late, e.IsSentinel) ∧
      (l.peek level).2.stack = l.stack ++ late.toList ∧
      (l.peek level).2.consumed = l.consumed := by
  have same : ∃ late : Option (Entry K), (∀ e ∈ late, e.IsSentinel) ∧
      l.stack = l.stack ++ late.toList ∧ l.consumed = l.consumed := ⟨none, nofun, by simp, rfl⟩
  rw [Lexer.peek]
  split
  · exact same
  · next room =>
    cases missing : level + 1 - l.stack.length with
    | zero => exact same
    | succ k =>
      have late := h.late told (by omega)
      rw [Lexer.extendBy]
      generalize l.extend = result at late ⊢
      cases late with
      | nothing stack consumed => exact ⟨none, nofun, by simp [stack], consumed⟩
      | @sentinel m e last stack consumed halted =>
        simp only [extendBy_of_halted halted]
        exact ⟨some e, by simpa using last, by simp [stack], consumed⟩

/-! ## Serving what waits -/

/-- What a turn makes of the waiting entries: it is answered from them, or it takes the first. -/
inductive Consumes (ahead : List (Entry K)) :
    Option (Option (Except LexError (Token K))) × Lexer Inline K → Prop where
  | result {r : Option (Except LexError (Token K))} {m : Lexer Inline K} :
    Serving ahead r m.shift.stack → Consumes ahead (some r, m)
  | silent {e : Entry K} {m : Lexer Inline K} : e.result? = none → ahead = e :: m.shift.stack →
    Consumes ahead (none, m)

/-- A waiting entry is taken from the front. -/
theorem Poised.classify (h : l.Poised) (stack : l.shift.stack = e :: rest) :
    Consumes l.shift.stack (l.shift.classify e) := by
  have behind : (Lexer.shift { l.shift with consumed := true }).stack = rest := by
    rw [stack_shift]
    simp [stack]
  rcases made : e.result? with _ | error | t
  · rw [classify_of_none made]
    split
    · next sentinel =>
      -- The sentinel is the last entry.
      obtain rfl : rest = [] := by
        have last := h.shift.last
        rw [stack, List.pairwise_cons] at last
        refine List.eq_nil_iff_forall_not_mem.2 fun x hx => ?_
        have more := last.1 x hx
        rw [sentinel.2] at more
        cases more
      refine .result ?_
      rw [behind, stack]
      exact .silent made .ended
    · exact .silent made (by rw [behind, stack])
  · rw [classify_of_error made]
    refine .result ?_
    rw [(spent_fail _).over.taken, stack]
    exact .error made
  · rw [classify_of_token made]
    refine .result ?_
    rw [behind, stack]
    exact .token made

/-- After the request, or as long as a token or an error waits, a turn is served from the waiting
entries. -/
theorem Poised.turn (h : l.Poised) (served : l.Told ∨ reading l.shift.stack ≠ []) :
    Consumes l.shift.stack l.turn := by
  have finds := finds_turn l
  have late (empty : l.shift.stack = []) : l.shift.Late l.shift.extend := by
    obtain told | some := served
    · refine h.shift.late (by rwa [Told, source_shift]) ?_
      rw [empty]
      exact h.shift.room
    · rw [empty] at some
      exact absurd rfl some
  generalize l.turn = result at finds ⊢
  cases finds with
  | held stack => exact h.classify stack
  | @pulled m e empty extended one =>
    have late := late empty
    rw [extended] at late
    cases late with
    | @sentinel _ last is_last stack consumed =>
      rw [empty, List.nil_append, one] at stack
      cases stack
      obtain ⟨pos, rfl⟩ := is_last
      have nothing : Entry.result? (⟨.ending pos 0, none⟩ : Entry K) = none := rfl
      rw [classify_of_none nothing, if_pos ⟨rfl, rfl⟩, empty]
      refine .result ?_
      rw [stack_shift]
      simp only [one, if_pos, List.tail_cons]
      exact .ended
  | @ended m empty extended =>
    refine .result ?_
    rw [empty, (over_of_extend extended empty).taken]
    exact .ended
  | lost empty extended =>
    have late := late empty
    rw [extended] at late
    cases late

/-- A call of `lex` is served in the same cases. -/
theorem Poised.serving (h : l.Poised) (served : l.Told ∨ reading l.shift.stack ≠ [])
    (lexes : Lexes l r m) : Serving l.shift.stack r m.shift.stack := by
  induction lexes with
  | result turned =>
    have consumes := h.turn served
    rw [turned] at consumes
    cases consumes with
    | result serving => exact serving
  | @skip l m n r turned _ ih =>
    have consumes := h.turn served
    have moved : l.moves l.turnMoves = m := by rw [moves_turn, turned]
    rw [turned] at consumes
    cases consumes with
    | silent none stack =>
      rw [stack]
      refine .silent none (ih (moved ▸ h.moves _) ?_)
      obtain told | some := served
      · exact .inl (moved ▸ told.moves _)
      · rw [stack, reading_of_none none] at some
        exact .inr some

theorem stack_shift_late {late : Option (Entry K)} (h : l.Poised)
    (stack : m.stack = l.stack ++ late.toList) (consumed : m.consumed = l.consumed) :
    m.shift.stack = l.shift.stack ++ late.toList := by
  cases late with
  | none =>
    rw [stack_shift, stack_shift, consumed, stack]
    simp
  | some e => exact stack_shift_push h.held consumed stack

theorem top?_of_waiting (top : l.shift.stack.getLast? = some e) : l.top? = some e.frame := by
  obtain ⟨front, stack⟩ := l.stack_shift_suffix
  rw [top?, ← stack, List.getLast?_append, top]
  rfl

/-- After the request all calls are answered from the entries that wait. -/
theorem Poised.livesOff (h : l.Poised) (told : l.Told) (runs : Runs l run m)
    (going : Call.stop ∉ run.map (·.1)) : LivesOff l.shift.stack run := by
  induction runs with
  | nil l => exact .nil _
  | @cons l m n c reply rest performs _ ih =>
    obtain ⟨ms, makes⟩ := exists_makes performs
    have moved := makes.moves_eq
    have later := ih (moved ▸ h.moves ms) (moved ▸ told.moves ms)
      (List.not_mem_of_not_mem_cons going)
    cases performs with
    | lex lexes => exact .lex (h.serving (.inl told) lexes) later
    | peek level =>
      obtain ⟨late, last, stack, consumed⟩ := h.late_peek told level
      exact .peek late last (stack_shift_late h stack consumed ▸ later)
    | pop => exact .pop (fun e top => top?_of_waiting top) (stack_shift_pop l ▸ later)
    | stop => exact absurd List.mem_cons_self going

/-! ## The stack after the request -/

/-- The stack holds entries of an earlier one, and behind them at most the sentinel, which is the
last entry to come. -/
def Inherits (stack : List (Entry K)) (l : Lexer Inline K) : Prop :=
  ∃ (old : List (Entry K)) (late : Option (Entry K)), l.stack = old ++ late.toList ∧
    old.Sublist stack ∧ ∀ e ∈ late, e.IsSentinel ∧ l.status ≠ .running

variable {stack : List (Entry K)}

theorem Inherits.of_sublist (h : Inherits stack l) (fewer : m.stack.Sublist l.stack)
    (halted : l.status ≠ .running → m.status ≠ .running) : Inherits stack m := by
  obtain ⟨old, late, held, inherited, last⟩ := h
  rw [held] at fewer
  obtain ⟨kept, behind, split, kept_of, behind_of⟩ := List.sublist_append_iff.1 fewer
  cases late with
  | none =>
    obtain rfl := List.sublist_nil.1 behind_of
    exact ⟨kept, none, split, kept_of.trans inherited, nofun⟩
  | some e =>
    obtain rfl | rfl := List.sublist_singleton.1 behind_of
    · exact ⟨kept, none, split, kept_of.trans inherited, nofun⟩
    · refine ⟨kept, some e, split, kept_of.trans inherited, fun x hx => ?_⟩
      exact ⟨(last x hx).1, halted (last x hx).2⟩

theorem Inherits.extend (h : Inherits stack l) (poised : l.Poised) (told : l.Told) :
    Inherits stack l.extend.2 := by
  have extended := extended_extend l
  generalize l.extend = result at extended ⊢
  cases extended with
  | halted => exact h
  | ended => exact h.of_sublist (List.Sublist.refl _) fun _ => nofun
  | @pushed f t action scopes running pulled rule =>
    obtain ⟨old, late, held, inherited, last⟩ := h
    obtain rfl : late = none := by
      cases late with
      | none => rfl
      | some e => exact absurd running (last e rfl).2
    obtain none | ⟨pos, some⟩ := poised.pull_of_told told running pulled
    · cases none
    · cases some
      rw [resolve?_of_end rfl] at rule
      cases rule
      refine ⟨old, some ⟨.ending pos 0, none⟩, by simp [held], inherited, fun e he => ?_⟩
      cases he
      exact ⟨⟨pos, rfl⟩, nofun⟩
  | lost => exact h.of_sublist (List.nil_sublist _) fun _ => (spent_fail _).halted

theorem Inherits.shift (h : Inherits stack l) : Inherits stack l.shift := by
  refine h.of_sublist l.stack_shift_suffix.sublist fun halted => ?_
  rwa [status_shift]

theorem Inherits.take (h : Inherits stack l) : Inherits stack l.take := by
  rw [Lexer.take]
  split
  · rw [classify_eq]
    split
    · exact h.shift
    · exact h.of_sublist (List.nil_sublist _) fun _ => (spent_fail _).halted
    · exact h.shift
  · exact h.shift

theorem Inherits.move (h : Inherits stack l) (poised : l.Poised) (told : l.Told) (a : Move) :
    Inherits stack (l.move a) := by
  cases a with
  | shift => exact h.shift
  | extend => exact h.extend poised told
  | take => exact h.take
  | look => exact h
  | pop => exact h.of_sublist (List.dropLast_sublist _) id
  | stop =>
    have spent := spent_stop l
    refine h.of_sublist ?_ fun _ => spent.halted
    rw [Lexer.move, spent.empty]
    exact List.nil_sublist _

theorem Poised.inherits (h : l.Poised) (told : l.Told) (ms : List Move) :
    Inherits l.stack (l.moves ms) := by
  have begins : l.Poised ∧ l.Told ∧ Inherits l.stack l :=
    ⟨h, told, l.stack, none, (List.append_nil _).symm, List.Sublist.refl _, nofun⟩
  refine (moves_induction (P := fun m => m.Poised ∧ m.Told ∧ Inherits l.stack m) ?_ begins ms).2.2
  intro m a ⟨poised, told, inherits⟩
  exact ⟨poised.move a, told.move a, inherits.move poised told a⟩

/-! ## Without the request -/

/-- What `lex` replies is the first of what waits. -/
theorem Serving.reading_eq (h : Serving ahead r after) :
    (∃ t, r = some (.ok t) ∧ reading ahead = .ok t :: reading after) ∨
      (∃ error, r = some (.error error) ∧ reading ahead = [.error error]) ∨
      r = none ∧ reading ahead = [] := by
  induction h with
  | @token e rest t token => exact .inl ⟨t, rfl, reading_of_token token⟩
  | @error e rest error failed => exact .inr (.inl ⟨error, rfl, reading_of_error failed⟩)
  | silent none _ ih => rwa [reading_of_none none]
  | ended => exact .inr (.inr ⟨rfl, rfl⟩)

/-- As long as tokens wait, calls of `lex` give these. -/
theorem Poised.lexed_waiting (h : l.Poised) (runs : Runs l run m)
    (only : ∀ c ∈ run.map (·.1), c = .lex) :
    (lexed run).take (reading l.shift.stack).length <+: (reading l.shift.stack).map some := by
  induction runs with
  | nil l => simp [lexed]
  | @cons l m n c reply rest performs _ ih =>
    obtain ⟨ms, makes⟩ := exists_makes performs
    obtain ⟨rfl, others⟩ := List.forall_mem_cons.1 only
    have later := ih (makes.moves_eq ▸ h.moves ms) others
    cases performs with
    | @lex _ r lexes =>
      by_cases nothing : reading l.shift.stack = []
      · simp [nothing]
      · have replied : lexed ((.lex, .token r) :: rest) = r :: lexed rest := rfl
        rw [replied]
        obtain ⟨t, rfl, waiting⟩ | ⟨error, rfl, waiting⟩ | ⟨-, none⟩ :=
          (h.serving (.inr nothing) lexes).reading_eq
        · rw [waiting, List.length_cons, List.take_succ_cons, List.map_cons]
          exact List.cons_prefix_cons.2 ⟨rfl, later⟩
        · simp [waiting]
        · exact absurd none nothing

/-! ## The request at any time -/

/-- The scanner of a lexer is told to stop, whatever the lexer was doing. The lexer goes on, and no
frame comes to its stack any more but at most the sentinel. All calls that follow are answered from
the frames that were waiting: `lex` gives their tokens in order, less those that `pop` has dropped
from the back, up to an error if there is one, and then nothing for ever. The tokens are the ones
that `lex` would have given without the request. -/
theorem backlog_served (g : Grammar K) (text : String) {capacity : Nat} (room : 0 < capacity)
    (before : List Move) :
    let first : Lexer Inline K := start g ⟨Scanner.start g.automata (.ofString text), false⟩ capacity
    let l := first.moves before
    let told : Lexer Inline K := { l with source := l.source.raise }
    let waiting := l.shift.stack
    (∀ calls, ∃ run last, Runs told run last ∧ run.map (·.1) = calls) ∧
    (∀ after, Inherits l.stack (told.moves after)) ∧
    (∀ run last, Runs told run last → Call.stop ∉ run.map (·.1) →
      LivesOff waiting run ∧
      ∃ served dropped, waiting = served ++ dropped ∧
        (dropped.map (·.frame)).reverse.Sublist (poppedOf run) ∧ Fills served true (lexed run)) ∧
    ∀ run last, Runs l run last → (∀ c ∈ run.map (·.1), c = .lex) →
      (lexed run).take (reading waiting).length <+: (reading waiting).map some := by
  intro first l told waiting
  have poised : l.Poised := (poised_start g text room).moves before
  have poised' : told.Poised := { poised with }
  have raised : told.Told := rfl
  refine ⟨exists_runs told, poised'.inherits raised, fun run last runs going => ?_,
    fun run last runs only => poised.lexed_waiting runs only⟩
  have lives := poised'.livesOff raised runs going
  have same : told.shift.stack = waiting := by simp only [told, waiting, stack_shift]
  rw [same] at lives
  exact ⟨lives, lives.exists_served⟩

/-- The scanner is told to stop when two matches and a match inside the first are on the stack, and
the pass inside the second match is open. The second match is dropped. -/
theorem backlog_served_inside_pass :
    let first : Lexer Inline String :=
      start .twofold ⟨Scanner.start (Grammar.automata .twofold) (.ofString "aabc"), false⟩ 8
    let l := (first.peek 3).2
    let told : Lexer Inline String := { l with source := l.source.raise }
    let run : List (Call × Reply String) := [
      (.peek 4, .peeked (.ok none)),
      (.pop, .popped (some ⟨some 0, "abc", ⟨0, 1⟩, 0⟩)),
      (.lex, .token (some (.ok ⟨"a", {}⟩))),
      (.lex, .token none)]
    (told.source.scanner.passes.length = 2 ∧ l.lex.2.lex.1 = some (.ok ⟨"abc", ⟨0, 1⟩⟩)) ∧
    ∃ last, Runs told run last ∧ LivesOff l.shift.stack run ∧
      ∃ served dropped, l.shift.stack = served ++ dropped ∧
        (dropped.map (·.frame)).reverse.Sublist (poppedOf run) ∧ Fills served true (lexed run) := by
  intro first l told run
  have open_pass : told.source.scanner.passes.length = 2 := by decide +kernel
  have without : l.lex.2.lex.1 = some (.ok ⟨"abc", ⟨0, 1⟩⟩) := by decide +kernel
  have peeked : (told.peek 4).1 = .ok none := by decide +kernel
  have popped : (told.peek 4).2.pop.1 = some ⟨some 0, "abc", ⟨0, 1⟩, 0⟩ := by decide +kernel
  have lexed : (told.peek 4).2.pop.2.lex.1 = some (.ok ⟨"a", {}⟩) := by decide +kernel
  have nothing : (told.peek 4).2.pop.2.lex.2.lex.1 = none := by decide +kernel
  have runs : Runs told [(.peek 4, .peeked (told.peek 4).1),
      (.pop, .popped (told.peek 4).2.pop.1), (.lex, .token (told.peek 4).2.pop.2.lex.1),
      (.lex, .token (told.peek 4).2.pop.2.lex.2.lex.1)] _ :=
    .cons (.peek told 4) <| .cons (.pop _) <| .cons (.lex (lexes_iff.2 rfl)) <|
      .cons (.lex (lexes_iff.2 rfl)) (.nil _)
  rw [peeked, popped, lexed, nothing] at runs
  have moved : first.moves (first.peekMoves 3) = l := first.moves_peek 3
  have room : 0 < 8 := by decide
  have served := (backlog_served .twofold "aabc" room (first.peekMoves 3)).2.2.1
  rw [moved] at served
  exact ⟨⟨open_pass, without⟩, _, runs, served run _ runs (by simp [run])⟩

end Lexer
end Munch
