import Munch.Lexer.Pulls
import Munch.Proofs.Ending

/-!
# Looking ahead by levels

A peek below the capacity of the stack pulls one frame after the other until there is one at its
level, and no more. What was on the stack stays where it is. Three things end it: the frame is
there, the source is over, or a pull fails, which gives the lexer up. The stack itself cannot stop
it, as a level below the capacity has room. A peek beyond the capacity does nothing at all.

What is asked of the source is read off its record: the pulls of a peek are those of the frames that
it brought onto the stack, and at most one more that finds nothing.

## Main definitions

* `Lexer.Tracks`: the bound on the stack, and a lexer that is running as long as its source is open.
* `Lexer.Stretches`: the ways of pulling up to a level.
* `Lexer.Sees`: the ways of a peek below the capacity.
* `Lexer.peeks_by_level`: every peek in every state of a run.
-/

namespace Munch

/-- The exchange that brought an entry. -/
def Entry.exchange {K : Type} (e : Entry K) : Exchange := .pulled (.ok (some e.frame))

theorem Recorded.not_open_of_history {σ : Type} {s : Recorded σ} {x : Exchange}
    {earlier : List Exchange} (h : s.history = x :: earlier) (last : ¬x.GoesOn) : ¬s.Open := by
  intro going
  exact last (going x (by rw [h]; exact List.mem_cons_self))

namespace Lexer

variable {σ K : Type} [FrameSource σ]

/-! ## Room on the stack -/

section Room

variable {l k m : Lexer σ K} {e : Entry K} {level : Nat}

/-- A frame that is pulled while there is room comes onto the stack. -/
theorem extend_of_room (room : l.stack.length < l.capacity) (h : l.pull = (.ok (some e), m)) :
    l.extend = (.ok true, { m with stack := l.stack ++ [e] }) := by
  have answers := answers_pull l
  rw [extend, h]
  rw [h] at answers
  cases answers with
  | frame => simp only [if_pos room]

/-- Where a peek pulls, the level has not been reached. -/
theorem short_of_pulls (h : Pulls l (.peek level) k) :
    k.stack.length ≤ level ∧ level < k.capacity := by
  generalize call : Call.peek level = c at h
  induction h with
  | lex => cases call
  | skip => cases call
  | peek room short =>
    cases call
    exact ⟨short, room⟩
  | deepen _ _ _ _ ih => exact ih call

end Room

/-! ## What holds in every state -/

section Tracks

variable {l m : Lexer (Recorded σ) K} {size : Nat}

/-- The stack holds no more than its capacity, and the lexer is running exactly as long as
everything that was asked of its source brought a frame that is not the sentinel. -/
structure Tracks (size : Nat) (l : Lexer (Recorded σ) K) : Prop where
  capacity : l.capacity = size
  depth : l.depth ≤ size
  running : l.status = .running ↔ l.source.Open

omit [FrameSource σ] in
theorem tracks_start (g : Grammar K) (source : σ) (size : Nat) :
    (start g ({ source } : Recorded σ) size).Tracks size :=
  ⟨rfl, Nat.zero_le _, iff_of_true rfl nofun⟩

theorem tracks_fail (capacity : l.capacity = size) : l.fail.Tracks size :=
  ⟨capacity, Nat.zero_le _, iff_of_false nofun (Recorded.not_open_of_history rfl id)⟩

theorem keeps_tracks (size : Nat) : Keeps (Tracks size : Lexer (Recorded σ) K → Prop) where
  shift l h := by
    refine ⟨(capacity_shift l).trans h.capacity, ?_, ?_⟩
    · exact Nat.le_trans l.stack_shift_suffix.length_le h.depth
    · rw [status_shift, source_shift]
      exact h.running
  consume _ h := ⟨h.capacity, h.depth, h.running⟩
  pop _ h := ⟨h.capacity, Nat.le_trans (List.dropLast_sublist _).length_le h.depth, h.running⟩
  stop l h := by
    rw [Lexer.stop]
    split
    · have closed : ¬(FrameSource.stop l.source).Open := Recorded.not_open_of_history rfl id
      exact ⟨h.capacity, Nat.zero_le _, iff_of_false (by simp [discard]) closed⟩
    · exact ⟨h.capacity, Nat.zero_le _, h.running⟩
  fail _ h := tracks_fail h.capacity

theorem Tracks.extend (h : l.Tracks size) : l.extend.2.Tracks size := by
  have answers := answers_pull l
  rw [Lexer.extend]
  generalize l.pull = answer at answers ⊢
  cases answers with
  | halted => exact h
  | failed => exact tracks_fail h.capacity
  | unknown => exact tracks_fail h.capacity
  | ended running pulled =>
    have closed := Recorded.not_open_of_history (Recorded.history_pull pulled) id
    exact ⟨h.capacity, h.depth, iff_of_false (by simp) closed⟩
  | @frame f t action scopes running pulled rule =>
    dsimp only
    split
    · next room =>
      refine ⟨h.capacity, ?_, ?_⟩
      · rw [h.capacity] at room
        rwa [Lexer.depth, List.length_append]
      · cases last : f.isSentinel with
        | true =>
          have record := Recorded.history_pull pulled
          have stops : ¬(Exchange.pulled (.ok (some f))).GoesOn := by simp [Exchange.GoesOn, last]
          exact iff_of_false (by simp) (Recorded.not_open_of_history record stops)
        | false => exact iff_of_true (by simp) ((h.running.1 running).pull_frame pulled last)
    · exact tracks_fail h.capacity

/-- The invariant holds in every state of a run, and behind a peek in such a state. -/
theorem Tracks.runs {run : List (Call × Reply K)} (h : l.Tracks size) (runs : Runs l run m) :
    m.Tracks size := by
  have pull : ∀ n, PulledIn l run n → n.Tracks size → Extends (Tracks size) (fun _ => True) n :=
    fun n _ tracks => ⟨tracks.extend, fun _ _ => trivial⟩
  exact ((keeps_tracks size).runs (Q := fun _ => True) (fun _ _ _ _ => trivial) runs h pull).1

end Tracks

/-! ## Pulling up to a level -/

section Peek

variable {l m n : Lexer (Recorded σ) K} {e : Entry K} {level size : Nat}

/-- The pulls that brought entries onto the stack, the latest first. -/
def exchanges (more : List (Entry K)) : List Exchange := (more.map Entry.exchange).reverse

/-- The ways of pulling up to a level: a frame is there, or the source is over first, or a pull
fails. -/
inductive Stretches (l : Lexer (Recorded σ) K) (level : Nat) :
    Except LexError Bool × Lexer (Recorded σ) K → Prop where
  | full {m : Lexer (Recorded σ) K} {more : List (Entry K)} : m.stack = l.stack ++ more →
    more.length = level + 1 - l.depth →
    m.source.history = exchanges more ++ l.source.history → Stretches l level (.ok true, m)
  | short {m : Lexer (Recorded σ) K} {more : List (Entry K)} {last : List Exchange} :
    m.stack = l.stack ++ more → m.depth ≤ level → m.status ≠ .running →
    (last = [] ∨ last = [.pulled (.ok none)]) →
    m.source.history = last ++ exchanges more ++ l.source.history → Stretches l level (.ok false, m)
  | lost {k m : Lexer (Recorded σ) K} {e : LexError} : Pulls l (.peek level) k →
    k.pull.1 = .error e → m.stack = [] → m.status = .failed → Stretches l level (.error e, m)

/-- What a peek does when a first pull brings a frame is told by what it does behind it. -/
theorem Stretches.deepen {r : Except LexError Bool × Lexer (Recorded σ) K}
    (h : Stretches m level r) (room : level < l.capacity) (short : l.stack.length ≤ level)
    (extended : l.extend = (.ok true, m)) (pushed : m.stack = l.stack ++ [e])
    (record : m.source.history = e.exchange :: l.source.history) : Stretches l level r := by
  have pulls : ∀ more : List (Entry K),
      exchanges more ++ m.source.history = exchanges (e :: more) ++ l.source.history := by
    intro more
    simp [exchanges, record]
  cases h with
  | @full n more stack length history =>
    rw [pushed, List.append_assoc, List.singleton_append] at stack
    refine .full stack ?_ (history.trans (pulls more))
    rw [depth, pushed, List.length_append, List.length_singleton] at length
    rw [List.length_cons, depth]
    omega
  | @short n more last stack le halted ended history =>
    rw [pushed, List.append_assoc, List.singleton_append] at stack
    refine .short stack le halted ended ?_
    rw [history, List.append_assoc, pulls more, List.append_assoc]
  | lost pulled failed => exact .lost (.deepen room short extended pulled) failed ‹_› ‹_›

theorem stretches_extendBy (room : level < l.capacity) :
    Stretches l level (l.extendBy (level + 1 - l.stack.length)) := by
  have same : l.stack = l.stack ++ [] := (List.append_nil l.stack).symm
  -- The induction is on the number of frames that are missing below the level.
  generalize missing : level + 1 - l.stack.length = n
  induction n generalizing l with
  | zero => exact .full same missing.symm rfl
  | succ n ih =>
    have short : l.stack.length ≤ level := by omega
    have pulls : Pulls l (.peek level) l := .peek room short
    have answers := answers_pull l
    rw [extendBy]
    rcases pulled : l.pull with ⟨e | _ | e, m⟩ <;> rw [pulled] at answers
    · have extended : l.extend = (.error e, m) := by rw [extend, pulled]
      have failed : l.pull.1 = .error e := by rw [pulled]
      rw [extended]
      cases answers with
      | failed => exact .lost pulls failed rfl rfl
      | unknown => exact .lost pulls failed rfl rfl
    · have extended : l.extend = (.ok false, m) := by rw [extend, pulled]
      rw [extended]
      cases answers with
      | halted halted =>
        exact .short same short halted (.inl rfl) rfl
      | ended _ answered =>
        exact .short same short (by simp) (.inr rfl) (Recorded.history_pull answered)
    · have extended := extend_of_room (by omega) pulled
      rw [extended]
      cases answers with
      | frame _ answered =>
        refine Stretches.deepen (ih room (List.append_nil _).symm ?_) room short extended rfl
          (Recorded.history_pull answered)
        rw [List.length_append, List.length_singleton]
        omega

/-- The ways of a peek at a level below the capacity. What was on the stack stays in place, and
behind it come the frames that were pulled. -/
inductive Sees (l : Lexer (Recorded σ) K) (level : Nat) :
    Except LexError (Option Frame) × Lexer (Recorded σ) K → Prop where
  /-- The frame at the level is there, and no frame was pulled but those up to it. -/
  | found {m : Lexer (Recorded σ) K} {more : List (Entry K)} {e : Entry K} :
    m.stack = l.stack ++ more → more.length = level + 1 - l.depth →
    m.source.history = exchanges more ++ l.source.history → m.stack[level]? = some e →
    Sees l level (.ok (some e.frame), m)
  /-- The source is over first. -/
  | nothing {m : Lexer (Recorded σ) K} {more : List (Entry K)} {last : List Exchange} :
    m.stack = l.stack ++ more → m.depth ≤ level → ¬m.source.Open →
    (last = [] ∨ last = [.pulled (.ok none)]) →
    m.source.history = last ++ exchanges more ++ l.source.history → Sees l level (.ok none, m)
  /-- A pull of the peek fails. -/
  | failed {k m : Lexer (Recorded σ) K} {e : LexError} : Pulls l (.peek level) k →
    k.pull.1 = .error e → m.stack = [] → m.status = .failed → Sees l level (.error e, m)

/-- A peek leads to a state of the run. -/
theorem Tracks.behind_peek (h : l.Tracks size) (level : Nat) : (l.peek level).2.Tracks size :=
  h.runs (.cons (.peek l level) (.nil (K := K) _))

/-- A peek below the capacity. -/
theorem Tracks.peek (h : l.Tracks size) (room : level < size) : Sees l level (l.peek level) := by
  have after := h.behind_peek level
  rw [← h.capacity] at room
  have stretches := stretches_extendBy room
  have there : ¬l.capacity ≤ level := by omega
  rw [Lexer.peek, if_neg there] at after ⊢
  generalize l.extendBy (level + 1 - l.stack.length) = result at stretches after ⊢
  cases stretches with
  | @full m more stack length history =>
    have inside : level < m.stack.length := by
      rw [stack, List.length_append, length, Lexer.depth]
      omega
    simp only [List.getElem?_eq_getElem inside, Option.map_some]
    exact .found stack length history (List.getElem?_eq_getElem inside)
  | @short m more last stack le halted ended history =>
    have nothing : m.stack[level]? = none := List.getElem?_eq_none le
    simp only [nothing, Option.map_none]
    exact .nothing stack le ((not_congr after.running).1 halted) ended history
  | lost pulls failed empty status => exact .failed pulls failed empty status

/-- A peek that does not fail keeps the frames that were on the stack. -/
theorem prefix_of_peek (h : l.Tracks size)
    (calm : ¬(Call.peek level).Finishes size (.peeked (l.peek level).1 : Reply K)) :
    l.stack <+: (l.peek level).2.stack := by
  by_cases room : level < size
  · have sees := h.peek room
    generalize l.peek level = result at sees calm ⊢
    cases sees with
    | found stack => exact ⟨_, stack.symm⟩
    | nothing stack => exact ⟨_, stack.symm⟩
    | failed => exact absurd (.peek _ room) calm
  · refine ⟨[], ?_⟩
    rw [Lexer.peek, if_pos (h.capacity ▸ Nat.le_of_not_lt room), List.append_nil]

/-- A frame that is on the stack is found there. -/
theorem peek_of_stack (room : level < l.capacity) (there : l.stack[level]? = some e) :
    l.peek level = (.ok (some e.frame), l) := by
  have inside := (List.getElem?_eq_some_iff.1 there).1
  have none_missing : level + 1 - l.stack.length = 0 := by omega
  rw [Lexer.peek, if_neg (by omega), none_missing, extendBy]
  simp only [there, Option.map_some]

/-- Calls look ahead and none of them fails. -/
def OnlyPeeks (capacity : Nat) (run : List (Call × Reply K)) : Prop :=
  ∀ p ∈ run, (∃ level, p.1 = .peek level) ∧ ¬p.1.Finishes capacity p.2

/-- What is on the stack stays in place while frames are looked at. -/
theorem prefix_of_runs {run : List (Call × Reply K)} (runs : Runs l run m) (h : l.Tracks size)
    (peeks : OnlyPeeks size run) : l.stack <+: m.stack := by
  induction runs with
  | nil => exact List.prefix_rfl
  | @cons l k n c r rest performs _ ih =>
    obtain ⟨⟨⟨level, rfl⟩, calm⟩, later⟩ := List.forall_mem_cons.1 peeks
    cases performs
    exact (prefix_of_peek h calm).trans (ih (h.behind_peek level) later)

/-- The frame that a peek finds is found again by the same peek behind any others. -/
theorem Sees.repeats {r : Except LexError (Option Frame) × Lexer (Recorded σ) K}
    (h : Sees l level r) (tracks : r.2.Tracks size) (room : level < size) {f : Frame}
    (found : r.1 = .ok (some f)) {run : List (Call × Reply K)} (runs : Runs r.2 run n)
    (peeks : OnlyPeeks size run) : n.peek level = (.ok (some f), n) := by
  have kept := prefix_of_runs runs tracks peeks
  cases h with
  | found _ _ _ there =>
    cases found
    obtain ⟨more, stack⟩ := kept
    have inside := (List.getElem?_eq_some_iff.1 there).1
    have room : level < n.capacity := by rwa [(tracks.runs runs).capacity]
    refine peek_of_stack room ?_
    rw [← stack, List.getElem?_append_left inside, there]
  | nothing => cases found
  | failed => cases found

/-- A peek that does not fail finds nothing exactly if the source is over before there is a frame
at the level. -/
theorem Sees.none_iff {r : Except LexError (Option Frame) × Lexer (Recorded σ) K}
    (h : Sees l level r) (succeeds : ∀ e, r.1 ≠ .error e) :
    r.1 = .ok none ↔ ¬r.2.source.Open ∧ r.2.depth ≤ level := by
  cases h with
  | found _ _ _ there =>
    have inside := (List.getElem?_eq_some_iff.1 there).1
    exact iff_of_false nofun fun ⟨_, short⟩ => Nat.not_lt.2 short inside
  | nothing _ short closed => exact iff_of_true rfl ⟨closed, short⟩
  | failed => exact absurd rfl (succeeds _)

end Peek

/-- Every peek in every state of every run over every source. Beyond the capacity it is refused and
does nothing. Below it the stack always has room for a frame that is pulled, and the peek goes one
of the ways of `Sees`; it finds nothing exactly if the source is over first, and a frame that it
finds is found again until a call takes from the stack or gives the lexer up. -/
theorem peeks_by_level (g : Grammar K) (source : σ) (capacity : Nat)
    {run : List (Call × Reply K)} {l : Lexer (Recorded σ) K}
    (runs : Runs (start g { source } capacity) run l) :
    l.depth ≤ capacity ∧ ∀ level,
      (capacity ≤ level → l.peek level = (.error (.lookaheadOverflow capacity), l)) ∧
      (level < capacity →
        (∀ k e m, Pulls l (.peek level) k → k.pull = (.ok (some e), m) →
          k.extend = (.ok true, { m with stack := k.stack ++ [e] })) ∧
        Sees l level (l.peek level) ∧
        ((∀ e, (l.peek level).1 ≠ .error e) → ((l.peek level).1 = .ok none ↔
          ¬(l.peek level).2.source.Open ∧ (l.peek level).2.depth ≤ level)) ∧
        ∀ f, (l.peek level).1 = .ok (some f) → ∀ more n, Runs (l.peek level).2 more n →
          OnlyPeeks capacity more → n.peek level = (.ok (some f), n)) := by
  have tracks := (tracks_start g source capacity).runs runs
  refine ⟨tracks.depth, fun level => ⟨fun full => ?_, fun room => ?_⟩⟩
  · rw [peek, tracks.capacity, if_pos full]
  · have sees := tracks.peek room
    refine ⟨?_, sees, sees.none_iff, ?_⟩
    · intro k e m pulls pulled
      obtain ⟨short, room⟩ := short_of_pulls pulls
      exact extend_of_room (by omega) pulled
    · intro f found more n looking peeks
      exact sees.repeats (tracks.behind_peek level) room found looking peeks

/-- Behind the first token of ` (x)fg` the third frame on the stack is pulled. It is found again
behind a peek that meets the sentinel before its level, and level 8 is refused. -/
theorem peeks_by_level_in_brackets :
    let first : Lexer (Recorded Script) String := start .bracketed { source := .bracketed } 8
    let l := first.lex.2
    let f : Frame := ⟨some 1, "f", ⟨0, 4⟩, 0⟩
    let n := ((l.peek 2).2.peek 7).2
    Runs first [(.lex, .token (some (.ok ⟨"x", ⟨0, 2⟩⟩)))] l ∧ l.depth = 1 ∧
      l.peek 8 = (.error (.lookaheadOverflow 8), l) ∧
      Sees l 2 (l.peek 2) ∧ (l.peek 2).1 = .ok (some f) ∧ n.peek 2 = (.ok (some f), n) ∧
      Sees l 7 (l.peek 7) ∧ (l.peek 7).1 = .ok none ∧ ¬(l.peek 7).2.source.Open ∧
      (l.peek 7).2.depth = 5 := by
  intro first l f n
  have token : first.lex.1 = some (.ok ⟨"x", ⟨0, 2⟩⟩) := by decide +kernel
  have runs : Runs first [(.lex, .token first.lex.1)] l :=
    .cons (.lex (lexes_iff.2 rfl)) (.nil _)
  rw [token] at runs
  have shallow : l.depth = 1 := by decide +kernel
  have found : (l.peek 2).1 = .ok (some f) := by decide +kernel
  have nothing : (l.peek 7).1 = .ok none := by decide +kernel
  have deeper : ((l.peek 2).2.peek 7).1 = .ok none := by decide +kernel
  have all : (l.peek 7).2.depth = 5 := by decide +kernel
  have looking : Runs (l.peek 2).2 [(.peek 7, .peeked ((l.peek 2).2.peek 7).1)] n :=
    .cons (.peek _ 7) (.nil _)
  rw [deeper] at looking
  obtain ⟨-, levels⟩ := peeks_by_level .bracketed Script.bracketed 8 runs
  obtain ⟨-, sees, -, again⟩ := (levels 2).2 (by decide)
  obtain ⟨-, sees', none_iff, -⟩ := (levels 7).2 (by decide)
  have closed := ((none_iff (by simp [nothing])).1 nothing).1
  refine ⟨runs, shallow, (levels 8).1 (by decide), sees, found, ?_, sees', nothing, closed, all⟩
  refine again f found _ n looking fun p hp => ?_
  obtain rfl := List.mem_singleton.1 hp
  exact ⟨⟨7, rfl⟩, nofun⟩

end Lexer

end Munch
