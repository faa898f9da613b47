import Mathlib.Data.List.Basic
import Munch.Lexer.Ledger

/-!
# The ledger of a lexer is right

The ledger holds the numbers of the frames on the stack, and what was done to frames agrees with
what is still held. Beside the stack one flag of the lexer decides whether the first frame on it was
taken already, and that flag has to survive every way of adding and dropping frames.

## Main definitions

* `Lexer.Accounts`: the invariant of every move.
* `Lexer.accounts_start`: it holds at the beginning of a source.
* `Lexer.Booked.accounts_moves`: it holds after any moves.
-/

namespace Munch

namespace Recorded

variable {σ : Type} [FrameSource σ] {s t : Recorded σ}

theorem frames_of_none (h : FrameSource.pull s = (.ok none, t)) : t.frames = s.frames := by
  rw [frames, history_pull h, frames]
  rfl

theorem frames_of_frame {f : Frame} (h : FrameSource.pull s = (.ok (some f), t)) :
    t.frames = s.frames ++ [f] := by
  rw [frames, history_pull h, frames, ← List.reverse_cons]
  rfl

theorem frames_of_pull {answer : Except LexError (Option Frame)}
    (h : FrameSource.pull s = (answer, t)) : ∃ new, t.frames = s.frames ++ new := by
  rcases answer with e | _ | f
  · refine ⟨[], ?_⟩
    rw [frames, history_pull h, frames, List.append_nil]
    rfl
  · exact ⟨[], by rw [frames_of_none h, List.append_nil]⟩
  · exact ⟨[f], frames_of_frame h⟩

end Recorded

namespace Lexer

variable {σ K : Type}

namespace Ledger

/-- The numbers of the frames on the stack that `lex` has not taken. -/
def untaken (b : Ledger) (l : Lexer σ K) : List Nat :=
  if l.consumed then b.held.tail else b.held

theorem untaken_subset (b : Ledger) (l : Lexer σ K) : b.untaken l ⊆ b.held := by
  rw [untaken]
  split
  · exact fun _ => List.mem_of_mem_tail
  · exact List.Subset.refl _

/-- Dropping the deepest frame drops it from those that are not taken, if it is one. -/
theorem untaken_pop {b : Ledger} {l : Lexer (Recorded σ) K}
    (length : b.held.length = l.stack.length) :
    b.pop.untaken l.pop.2 = (b.untaken l).dropLast := by
  have held : b.pop.held = b.held.dropLast := rfl
  have still : l.pop.2.consumed = (l.consumed && b.held.length != 1) := by rw [length]; rfl
  rw [untaken, untaken, held, still]
  cases l.consumed with
  | false => rfl
  | true =>
    match b.held with
    | [] => rfl
    | [_] => rfl
    | _ :: _ :: _ => simp

/-- The frame with a number was taken by `lex`, dropped or forgotten. -/
def Settled (b : Ledger) (n : Nat) : Prop :=
  .taken n ∈ b.deeds ∨ .popped n ∈ b.deeds ∨ .discarded n ∈ b.deeds

theorem Settled.mono {b c : Ledger} {n : Nat} (h : b.Settled n) (more : b.deeds ⊆ c.deeds) :
    c.Settled n := by
  rcases h with taken | popped | discarded
  · exact .inl (more taken)
  · exact .inr (.inl (more popped))
  · exact .inr (.inr (more discarded))

end Ledger

/-- A ledger is right about a lexer. -/
structure Accounts (l : Lexer (Recorded σ) K) (b : Ledger) : Prop where
  /-- The frames on the stack are those with the numbers that are held. -/
  stack : b.held.map (l.source.frames[·]?) = l.stack.map (some ·.frame)
  increasing : b.held.Pairwise (· < ·)
  /-- Something was done only to frames that were pulled. -/
  pulled : ∀ d ∈ b.deeds, d.number < l.source.frames.length
  order : b.deeds.Pairwise Deed.MayFollow
  /-- What was dropped or forgotten is not on the stack. -/
  gone : ∀ n ∈ b.held, .popped n ∉ b.deeds ∧ .discarded n ∉ b.deeds
  /-- `lex` has still to take only frames behind those that it has taken. -/
  ahead : ∀ n, .taken n ∈ b.deeds → ∀ m ∈ b.untaken l, n < m
  /-- What was pulled is on the stack still unless something became of it. -/
  kept : ∀ n < l.source.frames.length, n ∈ b.held ∨ b.Settled n
  /-- A current frame that was made into a token is on the stack. -/
  current : l.consumed = true → ∃ n rest, b.held = n :: rest ∧ .taken n ∈ b.deeds

section Accounts

variable {l m : Lexer (Recorded σ) K} {b : Ledger} {e : Entry K} {rest : List (Entry K)}

theorem accounts_start (g : Grammar K) (source : σ) (capacity : Nat) :
    Accounts (start g ({ source } : Recorded σ) capacity) {} where
  stack := rfl
  increasing := .nil
  pulled := nofun
  order := .nil
  gone := nofun
  ahead := nofun
  kept := nofun
  current := nofun

/-- What is on the stack at a level is the frame with the number that is held there. -/
theorem Accounts.held_of_stack (h : Accounts l b) {level : Nat} {e : Entry K}
    (there : l.stack[level]? = some e) :
    ∃ n, b.held[level]? = some n ∧ l.source.frames[n]? = some e.frame := by
  have same := congrArg (·[level]?) h.stack
  simp only [List.getElem?_map, there, Option.map_some] at same
  obtain ⟨n, held, frame⟩ := Option.map_eq_some_iff.1 same
  exact ⟨n, held, frame⟩

theorem Accounts.held_of_first (h : Accounts l b) (stack : l.stack = e :: rest) :
    ∃ n behind, b.held = n :: behind ∧ l.source.frames[n]? = some e.frame := by
  have same := h.stack
  rw [stack, List.map_cons] at same
  obtain ⟨n, behind, held, frame, -⟩ := List.map_eq_cons_iff.1 same
  exact ⟨n, behind, held, frame⟩

theorem Accounts.length_eq (h : Accounts l b) : b.held.length = l.stack.length := by
  have same := congrArg List.length h.stack
  simpa using same

/-- A frame on the stack was pulled. -/
theorem Accounts.lt_of_held (h : Accounts l b) {n : Nat} (held : n ∈ b.held) :
    n < l.source.frames.length := by
  have there : l.source.frames[n]? ∈ l.stack.map (some ·.frame) := by
    rw [← h.stack]
    exact List.mem_map_of_mem held
  obtain ⟨e, -, frame⟩ := List.mem_map.1 there
  exact (List.getElem?_eq_some_iff.1 frame.symm).1

theorem Accounts.stack_ne_nil (h : Accounts l b) (consumed : l.consumed = true) :
    l.stack ≠ [] := by
  obtain ⟨n, rest, held, -⟩ := h.current consumed
  have same := h.length_eq
  intro empty
  simp [held, empty] at same

/-- What concerns a frame on the stack, or one that was just pulled, may follow all earlier deeds,
as far as `lex` takes none but those ahead. -/
theorem Accounts.mayFollow (h : Accounts l b) {d : Deed}
    (present : d.number ∈ b.held ∨ l.source.frames.length ≤ d.number)
    (ahead : ∀ n, d = .taken n → n ∈ b.untaken l) : ∀ earlier ∈ b.deeds, d.MayFollow earlier := by
  intro earlier done
  have before := h.pulled earlier done
  cases earlier with
  | taken n =>
    intro m same
    exact h.ahead n done m (ahead m same)
  | peeked n => trivial
  | popped n =>
    rintro rfl
    rcases present with held | new
    · exact (h.gone _ held).1 done
    · exact absurd before (Nat.not_lt.2 new)
  | discarded n =>
    rintro rfl
    rcases present with held | new
    · exact (h.gone _ held).2 done
    · exact absurd before (Nat.not_lt.2 new)

/-- A lexer with the same frames has the same ledger. -/
theorem Accounts.congr (h : Accounts l b) (frames : m.source.frames = l.source.frames)
    (stack : m.stack = l.stack) (consumed : m.consumed = l.consumed) : Accounts m b where
  stack := by rw [frames, stack]; exact h.stack
  increasing := h.increasing
  pulled := by rw [frames]; exact h.pulled
  order := h.order
  gone := h.gone
  ahead := by rw [Ledger.untaken, consumed]; exact h.ahead
  kept := by rw [frames]; exact h.kept
  current := by rw [consumed]; exact h.current

theorem Accounts.shift (h : Accounts l b) :
    Accounts l.shift (if l.consumed then b.shift else b) := by
  cases consumed : l.consumed with
  | false => simpa [shift_of_fresh consumed] using h
  | true =>
    obtain ⟨first, rest, held, taken⟩ := h.current consumed
    have tail : b.shift.held = b.held.tail := rfl
    exact {
      stack := by
        rw [source_shift, stack_shift, if_pos consumed, if_pos rfl, tail, List.map_tail,
          List.map_tail, h.stack]
      increasing := h.increasing.sublist (List.tail_sublist _)
      pulled := by
        rw [source_shift]
        exact h.pulled
      order := h.order
      gone := by
        intro n there
        exact h.gone n (List.mem_of_mem_tail there)
      ahead := by
        intro n done m there
        apply h.ahead n done m
        rw [Ledger.untaken, if_pos consumed]
        exact Ledger.untaken_subset _ _ there
      kept := by
        rw [source_shift]
        intro n there
        rcases h.kept n there with here | away
        · rw [held] at here
          rcases List.mem_cons.1 here with rfl | behind
          · exact .inr (.inl taken)
          · exact .inl (by simpa [tail, held] using behind)
        · exact .inr away
      current := by simp }

/-- A frame was pulled onto the stack. -/
theorem Accounts.push (h : Accounts l b) {f : Frame}
    (frames : m.source.frames = l.source.frames ++ [f]) {action : Option (Action K)}
    (stack : m.stack = l.stack ++ [⟨f, action⟩]) (consumed : m.consumed = l.consumed) :
    Accounts m (b.push [l.source.frames.length]) := by
  have held : (b.push [l.source.frames.length]).held = b.held ++ [l.source.frames.length] := rfl
  have older : b.held.map (m.source.frames[·]?) = b.held.map (l.source.frames[·]?) := by
    apply List.map_congr_left
    intro n there
    rw [frames, List.getElem?_append_left (h.lt_of_held there)]
  exact {
    stack := by
      rw [held, List.map_append, older, h.stack, stack, frames]
      simp
    increasing := by
      rw [held]
      refine List.pairwise_append.2 ⟨h.increasing, List.pairwise_singleton _ _, ?_⟩
      intro n there k same
      rw [List.mem_singleton.1 same]
      exact h.lt_of_held there
    pulled := by
      intro d done
      have before := h.pulled d done
      rw [frames, List.length_append]
      omega
    order := h.order
    gone := by
      intro n there
      rcases List.mem_append.1 there with older | new
      · exact h.gone n older
      · rw [List.mem_singleton.1 new]
        refine ⟨fun done => ?_, fun done => ?_⟩
        · exact absurd (h.pulled _ done) (Nat.lt_irrefl _)
        · exact absurd (h.pulled _ done) (Nat.lt_irrefl _)
    ahead := by
      intro n done k there
      have before := h.pulled _ done
      have either : k ∈ b.untaken l ∨ k = l.source.frames.length := by
        rw [Ledger.untaken, consumed, held] at there
        rw [Ledger.untaken]
        split
        · next taken =>
          obtain ⟨first, rest, some, -⟩ := h.current taken
          simpa [taken, some] using there
        · next fresh => simpa [fresh] using there
      rcases either with older | rfl
      · exact h.ahead n done k older
      · exact before
    kept := by
      intro n there
      rw [frames, List.length_append, List.length_singleton] at there
      by_cases new : n = l.source.frames.length
      · exact .inl (by simp [held, new])
      · rcases h.kept n (by omega) with here | away
        · exact .inl (List.mem_append_left _ here)
        · exact .inr away
    current := by
      intro taken
      obtain ⟨first, rest, some, done⟩ := h.current (consumed ▸ taken)
      exact ⟨first, rest ++ [l.source.frames.length], by rw [held, some, List.cons_append], done⟩ }

/-- The first frame becomes the current one. -/
theorem Accounts.take (h : Accounts l b) (fresh : l.consumed = false) {n : Nat}
    {behind : List Nat} (held : b.held = n :: behind) :
    Accounts { l with consumed := true } b.take := by
  have deeds : b.take.deeds = .taken n :: b.deeds := by rw [Ledger.take_of_cons held]
  have more : b.deeds ⊆ b.take.deeds := by
    rw [deeds]
    exact List.subset_cons_self ..
  have first : n ∈ b.untaken l := by simp [Ledger.untaken, fresh, held]
  have here : n ∈ b.held := by simp [held]
  have increasing := h.increasing
  rw [held] at increasing
  exact {
    stack := h.stack
    increasing := h.increasing
    pulled := by
      rw [deeds]
      exact List.forall_mem_cons.2 ⟨h.lt_of_held here, h.pulled⟩
    order := by
      rw [deeds]
      refine List.pairwise_cons.2 ⟨h.mayFollow (.inl here) ?_, h.order⟩
      intro k same
      cases same
      exact first
    gone := by
      rw [deeds]
      intro k there
      simpa using h.gone k there
    ahead := by
      rw [deeds]
      intro k done m there
      have later : m ∈ behind := by simpa [Ledger.untaken, Ledger.take, held] using there
      rcases List.mem_cons.1 done with this | before
      · cases this
        exact (List.pairwise_cons.1 increasing).1 m later
      · apply h.ahead k before m
        simp [Ledger.untaken, fresh, held, later]
    kept := by
      intro k there
      rcases h.kept k there with here | settled
      · exact .inl here
      · exact .inr (settled.mono more)
    current := by
      intro _
      exact ⟨n, behind, held, by rw [deeds]; exact List.mem_cons_self ..⟩ }

/-- A frame on the stack is handed out. -/
theorem Accounts.look (h : Accounts l b) (level : Nat) : Accounts l (b.look level) := by
  rw [Ledger.look]
  cases there : b.held[level]? with
  | none => exact h
  | some n =>
    have here : n ∈ b.held := List.mem_of_getElem? there
    exact {
      stack := h.stack
      increasing := h.increasing
      pulled := List.forall_mem_cons.2 ⟨h.lt_of_held here, h.pulled⟩
      order := by
        refine List.pairwise_cons.2 ⟨h.mayFollow (.inl here) ?_, h.order⟩
        intro k same
        cases same
      gone := by
        intro k held
        simpa using h.gone k held
      ahead := by
        intro k done m there
        exact h.ahead k (by simpa using done) m there
      kept := by
        intro k pulled
        rcases h.kept k pulled with held | settled
        · exact .inl held
        · exact .inr (settled.mono (List.subset_cons_self ..))
      current := by
        intro consumed
        obtain ⟨first, rest, held, taken⟩ := h.current consumed
        exact ⟨first, rest, held, List.mem_cons_of_mem _ taken⟩ }

/-- The deepest frame is dropped. If it is the current one, no frame is consumed any more. -/
theorem Accounts.pop (h : Accounts l b) : Accounts l.pop.2 b.pop := by
  have length := h.length_eq
  have consumed : l.pop.2.consumed = (l.consumed && b.held.length != 1) := by rw [length]; rfl
  rcases List.eq_nil_or_concat b.held with empty | ⟨older, n, held⟩
  · have none : l.stack = [] := List.length_eq_zero_iff.1 (by rw [← length, empty]; rfl)
    have same : b.pop = b := by
      cases b
      simp_all [Ledger.pop]
    rw [same]
    refine h.congr rfl ?_ ?_
    · rw [Lexer.pop, none, List.dropLast_nil]
    · rw [consumed, empty]
      simp
  · rw [List.concat_eq_append] at held
    have popped : b.pop = { held := older, deeds := .popped n :: b.deeds } := by
      simp [Ledger.pop, held]
    have here : n ∈ b.held := by simp [held]
    have increasing := h.increasing
    rw [held, List.pairwise_append] at increasing
    obtain ⟨older_increasing, -, below⟩ := increasing
    have fewer : b.pop.untaken l.pop.2 ⊆ b.untaken l := by
      rw [Ledger.untaken_pop length]
      exact List.dropLast_subset _
    rw [popped] at fewer ⊢
    exact {
      stack := by
        have stack := congrArg List.dropLast h.stack
        rw [← List.map_dropLast, ← List.map_dropLast, held, List.dropLast_concat] at stack
        exact stack
      increasing := older_increasing
      pulled := List.forall_mem_cons.2 ⟨h.lt_of_held here, h.pulled⟩
      order := by
        refine List.pairwise_cons.2 ⟨h.mayFollow (.inl here) ?_, h.order⟩
        intro k same
        cases same
      gone := by
        intro k there
        have before : k ∈ b.held := by simp [held, there]
        have other := below k there n (List.mem_singleton_self n)
        have gone := h.gone k before
        refine ⟨fun done => ?_, fun done => ?_⟩
        · rcases List.mem_cons.1 done with this | earlier
          · cases this
            exact Nat.lt_irrefl _ other
          · exact gone.1 earlier
        · exact gone.2 (by simpa using done)
      ahead := by
        intro k done m there
        exact h.ahead k (by simpa using done) m (fewer there)
      kept := by
        intro k pulled
        rcases h.kept k pulled with there | settled
        · rw [held, List.mem_append, List.mem_singleton] at there
          rcases there with there | rfl
          · exact .inl there
          · exact .inr (.inr (.inl (List.mem_cons_self ..)))
        · exact .inr (settled.mono (List.subset_cons_self ..))
      current := by
        intro still
        rw [consumed, held] at still
        simp only [List.length_append, List.length_singleton, Bool.and_eq_true, bne_iff_ne] at still
        obtain ⟨taken, more⟩ := still
        obtain ⟨first, rest, same, done⟩ := h.current taken
        cases older with
        | nil => exact absurd rfl more
        | cons k older =>
          rw [held] at same
          cases same
          exact ⟨first, older, rfl, List.mem_cons_of_mem _ done⟩ }

/-- The frames on the stack are forgotten, and those that were just pulled with them. -/
theorem Accounts.discard (h : Accounts l b) {new : List Frame}
    (frames : m.source.frames = l.source.frames ++ new) (stack : m.stack = [])
    (consumed : m.consumed = false) :
    Accounts m (b.push (List.range' l.source.frames.length new.length)).discard := by
  let lost := b.held ++ List.range' l.source.frames.length new.length
  have all : m.source.frames.length = l.source.frames.length + new.length := by
    rw [frames, List.length_append]
  have mem_lost (n : Nat) : n ∈ lost ↔
      n ∈ b.held ∨ l.source.frames.length ≤ n ∧ n < m.source.frames.length := by
    rw [List.mem_append, List.mem_range'_1, all]
  have increasing : lost.Pairwise (· < ·) := by
    refine List.pairwise_append.2 ⟨h.increasing, List.pairwise_lt_range', ?_⟩
    intro n there k new
    exact Nat.lt_of_lt_of_le (h.lt_of_held there) (List.mem_range'_1.1 new).1
  have deeds : (b.push (List.range' l.source.frames.length new.length)).discard =
      { held := [], deeds := lost.map .discarded ++ b.deeds } := rfl
  rw [deeds]
  exact {
    stack := by
      rw [stack]
      rfl
    increasing := .nil
    pulled := by
      intro d done
      rcases List.mem_append.1 done with now | before
      · obtain ⟨n, there, rfl⟩ := List.mem_map.1 now
        rcases (mem_lost n).1 there with held | new
        · exact Nat.lt_of_lt_of_le (h.lt_of_held held) (by omega)
        · exact new.2
      · exact Nat.lt_of_lt_of_le (h.pulled d before) (by omega)
    order := by
      refine List.pairwise_append.2 ⟨?_, h.order, ?_⟩
      · exact List.pairwise_map.2 (increasing.imp Nat.ne_of_lt)
      · intro d now
        obtain ⟨n, there, rfl⟩ := List.mem_map.1 now
        apply h.mayFollow
        · rcases (mem_lost n).1 there with held | new
          · exact .inl held
          · exact .inr new.1
        · intro k same
          cases same
    gone := nofun
    ahead := by
      intro n _ k there
      simp [Ledger.untaken] at there
    kept := by
      intro n there
      right
      have either : n ∈ lost ∨ b.Settled n := by
        by_cases old : n < l.source.frames.length
        · rcases h.kept n old with held | settled
          · exact .inl ((mem_lost n).2 (.inl held))
          · exact .inr settled
        · exact .inl ((mem_lost n).2 (.inr ⟨Nat.not_lt.1 old, there⟩))
      rcases either with now | before
      · exact .inr (.inr (List.mem_append_left _ (List.mem_map_of_mem now)))
      · exact before.mono (List.subset_append_right _ _)
    current := by simp [consumed] }

end Accounts

/-! ## Moves -/

section Moves

variable [FrameSource σ] {l m : Lexer (Recorded σ) K} {b : Ledger} {e : Entry K}

theorem pulledBy_eq {a : Move} {new : List Frame}
    (frames : (l.move a).source.frames = l.source.frames ++ new) :
    l.pulledBy a = List.range' l.source.frames.length new.length := by
  rw [pulledBy, frames, List.length_append, Nat.add_sub_cancel_left]

theorem Accounts.extend (h : Accounts l b) : Accounts l.extend.2 (b.note l .extend) := by
  have extended := extended_extend l
  generalize same : l.extend = result at extended
  have after : l.move .extend = result.2 := congrArg Prod.snd same
  cases extended with
  | halted =>
    have frames : (l.move .extend).source.frames = l.source.frames ++ [] := by
      rw [after, List.append_nil]
    rw [Ledger.note_of_succeeds (by rw [fails, same]), Ledger.record, pulledBy_eq frames,
      List.length_nil, List.range'_zero, Ledger.push_nil]
    exact h
  | @ended t running pulled =>
    have frames : (l.move .extend).source.frames = l.source.frames ++ [] := by
      rw [after, List.append_nil]
      exact Recorded.frames_of_none pulled
    rw [Ledger.note_of_succeeds (by rw [fails, same]), Ledger.record, pulledBy_eq frames,
      List.length_nil, List.range'_zero, Ledger.push_nil]
    exact h.congr (Recorded.frames_of_none pulled) rfl rfl
  | @pushed f t action scopes running pulled rule =>
    have frames : (l.move .extend).source.frames = l.source.frames ++ [f] := by
      rw [after]
      exact Recorded.frames_of_frame pulled
    rw [Ledger.note_of_succeeds (by rw [fails, same]), Ledger.record, pulledBy_eq frames]
    exact h.push (Recorded.frames_of_frame pulled) rfl rfl
  | @lost answer t m e running pulled _ source =>
    obtain ⟨new, gave⟩ := Recorded.frames_of_pull pulled
    have frames : (l.move .extend).source.frames = l.source.frames ++ new := by
      rw [after, ← gave, ← source]
      rfl
    rw [Ledger.note_of_fails (by rw [fails, same]), Ledger.record, pulledBy_eq frames]
    exact h.discard (after ▸ frames) rfl rfl

omit [FrameSource σ] in
/-- A lexer that gives up forgets the frames on its stack. -/
theorem Accounts.give_up (h : Accounts l b) (frames : m.source.frames = l.source.frames)
    (stack : m.stack = []) (consumed : m.consumed = false) : Accounts m b.discard := by
  have same : m.source.frames = l.source.frames ++ [] := by rw [frames, List.append_nil]
  have forgotten := h.discard same stack consumed
  rwa [List.length_nil, List.range'_zero, Ledger.push_nil] at forgotten

theorem Accounts.take_move (h : Accounts l b) : Accounts l.take (b.note l .take) := by
  have shifted := h.shift
  have taken : b.record l .take = (if l.consumed then b.shift else b).take := rfl
  cases stack : l.shift.stack with
  | nil =>
    have empty : (if l.consumed then b.shift else b).held = [] :=
      List.length_eq_zero_iff.1 (by rw [shifted.length_eq, stack, List.length_nil])
    rw [Ledger.note_of_succeeds (by simp [fails, stack]), taken, Ledger.take_of_nil empty]
    simpa only [Lexer.take, stack] using shifted
  | cons e rest =>
    obtain ⟨n, behind, held, -⟩ := shifted.held_of_first stack
    have current := shifted.take (consumed_shift l) held
    rw [take_of_stack stack]
    rcases made : e.result? with _ | error | t
    · rw [Ledger.note_of_succeeds (by simp [fails, stack, made]), taken, classify_of_none made]
      exact current
    · rw [Ledger.note_of_fails (by simp [fails, stack, made]), taken, classify_of_error made]
      exact current.give_up rfl rfl rfl
    · rw [Ledger.note_of_succeeds (by simp [fails, stack, made]), taken, classify_of_token made]
      exact current

theorem Accounts.stop_move (h : Accounts l b) : Accounts l.stop b.discard := by
  have frames : l.stop.source.frames = l.source.frames := by
    rw [Lexer.stop]
    split <;> rfl
  have empty : l.stop.stack = [] ∧ l.stop.consumed = false := by
    rw [Lexer.stop]
    split <;> exact ⟨rfl, rfl⟩
  exact h.give_up frames empty.1 empty.2

/-- Every move preserves the invariant. -/
theorem Booked.accounts_move {x : Booked σ K} (h : Accounts x.lexer x.ledger) (a : Move) :
    Accounts (x.move a).lexer (x.move a).ledger := by
  cases a with
  | shift => exact h.shift
  | extend => exact h.extend
  | take => exact h.take_move
  | look level => exact h.look level
  | pop => exact h.pop
  | stop => exact h.stop_move

theorem Booked.accounts_moves {x : Booked σ K} (h : Accounts x.lexer x.ledger) (ms : List Move) :
    Accounts (x.moves ms).lexer (x.moves ms).ledger := by
  induction ms generalizing x with
  | nil => exact h
  | cons a ms ih => exact ih (accounts_move h a)

end Moves

end Lexer

end Munch
