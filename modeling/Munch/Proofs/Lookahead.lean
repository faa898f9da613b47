import Munch.Lexer.Reading

/-!
# Looking ahead does not change the tokens

Peeking moves frames from the source onto the stack, and `lex` takes them from there. What counts
for the tokens is neither, but all that is still to come: the entries on the stack that `lex` has
not yet taken, and behind them those that the source has still to give. Peeking leaves this as it
is, and every turn of `lex` takes the first entry away. So the results of `lex` can be read off
what is to come at the beginning, however calls of `peek` are mixed in.

## Main definitions

* `Lexer.coming`: the entries that `lex` has still to take.
* `Lexer.Steady`: the invariant of a lexer whose source never fails.
* `Lexer.peeks_invisible`: calls of `lex`, with calls of `peek` in between or without.
-/

namespace Munch

namespace FrameSource

variable {σ : Type} [FrameSource σ]

theorem Reliable.pull {s : σ} (h : Reliable s) : ∃ frame, (pull s).1 = .ok frame :=
  h 1 _ (List.mem_cons_self ..)

theorem reliable_script {s : Script} (h : ∀ a ∈ s.answers, ∃ frame, a = .ok frame) :
    Reliable s := by
  intro n
  induction n generalizing s with
  | zero => exact fun a ha => nomatch ha
  | succ n ih =>
    obtain ⟨_ | ⟨first, rest⟩⟩ := s
    · exact List.forall_mem_cons.2 ⟨⟨none, rfl⟩, ih h⟩
    · exact List.forall_mem_cons.2 ⟨h first (List.mem_cons_self ..),
        ih fun a ha => h a (List.mem_cons_of_mem _ ha)⟩

theorem Reliable.after {s : σ} (h : Reliable s) : Reliable (FrameSource.pull s).2 :=
  fun n a ha => h (n + 1) a (List.mem_cons_of_mem _ ha)

end FrameSource

open FrameSource (answers framesOf ends Reliable reliable_script)

namespace Lexer

variable {σ K : Type} [FrameSource σ] {s t : σ} {scopes scopes' : List (Grammar K)} {f : Frame}
  {action : Option (Action K)}

/-! ## What a source supplies -/

/-- No pull fails, and every frame up to the sentinel has a rule. -/
structure Serves (source : σ) (scopes : List (Grammar K)) : Prop where
  reliable : Reliable source
  ruled : ∀ n, ∃ entries, entries? scopes (framesOf (answers source n)) = some entries

/-- The entries of the next `n` pulls, and whether no more follow. -/
def supplied (source : σ) (scopes : List (Grammar K)) (n : Nat) : List (Entry K) × Bool :=
  ((entries? scopes (framesOf (answers source n))).getD [], ends (answers source n))

@[simp] theorem supplied_zero (source : σ) (scopes : List (Grammar K)) :
    supplied source scopes 0 = ([], false) := rfl

theorem supplied_of_none (h : FrameSource.pull s = (.ok none, t)) (n : Nat) :
    supplied s scopes (n + 1) = ([], true) := by
  simp [supplied, answers, h, framesOf, ends, entries?]

theorem supplied_of_sentinel (h : FrameSource.pull s = (.ok (some f), t))
    (last : f.isSentinel = true) (rule : resolve? scopes f = some (action, scopes')) (n : Nat) :
    supplied s scopes (n + 1) = ([⟨f, action⟩], true) := by
  simp [supplied, answers, h, framesOf, ends, entries?, last, rule]

theorem supplied_of_frame (h : FrameSource.pull s = (.ok (some f), t))
    (more : f.isSentinel = false) (rule : resolve? scopes f = some (action, scopes'))
    (serves : Serves t scopes') (n : Nat) :
    supplied s scopes (n + 1) =
      (⟨f, action⟩ :: (supplied t scopes' n).1, (supplied t scopes' n).2) := by
  obtain ⟨entries, ruled⟩ := serves.ruled n
  simp [supplied, answers, h, framesOf, ends, entries?, more, rule, ruled]

/-- A pull of such a source gives no frame, or a frame with a rule. -/
theorem Serves.pull (h : Serves s scopes) :
    (∃ t, FrameSource.pull s = (.ok none, t)) ∨
      ∃ f t action scopes', FrameSource.pull s = (.ok (some f), t) ∧
        resolve? scopes f = some (action, scopes') ∧ (f.isSentinel = false → Serves t scopes') := by
  obtain ⟨frame, answer⟩ := h.reliable.pull
  rcases pulled : FrameSource.pull s with ⟨a, t⟩
  obtain rfl : a = .ok frame := by rw [pulled] at answer; exact answer
  cases frame with
  | none => exact .inl ⟨t, rfl⟩
  | some f =>
    right
    cases rule : resolve? scopes f with
    | none =>
      obtain ⟨entries, ruled⟩ := h.ruled 1
      simp [answers, pulled, framesOf, entries?, rule] at ruled
    | some p =>
      obtain ⟨action, scopes'⟩ := p
      refine ⟨f, t, action, scopes', rfl, rule, fun more => ⟨?_, fun n => ?_⟩⟩
      · have after := h.reliable.after
        rwa [pulled] at after
      · obtain ⟨entries, ruled⟩ := h.ruled (n + 1)
        simp only [answers, pulled, framesOf, more, entries?, rule] at ruled
        cases rest : entries? scopes' (framesOf (answers t n)) with
        | none => simp [rest] at ruled
        | some entries => exact ⟨entries, rfl⟩

/-! ## What is still to come -/

variable {l m : Lexer σ K} {e : Entry K} {rest : List (Entry K)}
  {r : Option (Except LexError (Token K))} {results : List (Option (Except LexError (Token K)))}

/-- The entries that `lex` has still to take after `n` more pulls, and whether no more follow. -/
def coming (l : Lexer σ K) (n : Nat) : List (Entry K) × Bool :=
  if l.status = .running then
    (l.shift.stack ++ (supplied l.source l.scopes n).1, (supplied l.source l.scopes n).2)
  else (l.shift.stack, true)

theorem coming_of_running (running : l.status = .running) (n : Nat) :
    l.coming n =
      (l.shift.stack ++ (supplied l.source l.scopes n).1, (supplied l.source l.scopes n).2) :=
  if_pos running

theorem coming_of_halted (halted : l.status ≠ .running) (n : Nat) :
    l.coming n = (l.shift.stack, true) :=
  if_neg halted

/-- The results of `lex` that take no more than `n` pulls. -/
def ExpectsIn (l : Lexer σ K) (n : Nat) (results : List (Option (Except LexError (Token K)))) :
    Prop :=
  Fills (l.coming n).1 (l.coming n).2 results

/-- The results that `lex` has still to give. -/
def Expects (l : Lexer σ K) (results : List (Option (Except LexError (Token K)))) : Prop :=
  ∃ n, l.ExpectsIn n results

/-- A lexer over a source that never fails and whose frames have a rule. The sentinel is the last
frame that it pulls. -/
structure Steady (l : Lexer σ K) : Prop where
  room : 0 < l.capacity
  serves : l.status = .running → Serves l.source l.scopes
  held : l.consumed = true → l.stack ≠ []
  open_end : l.status = .running → ∀ e ∈ l.stack, e.frame.isSentinel = false
  last : ∀ e ∈ l.stack.dropLast, e.frame.isSentinel = false

theorem steady_start {g : Grammar K} {source : σ} (serves : Serves source [g]) {capacity : Nat}
    (room : 0 < capacity) : (start g source capacity).Steady where
  room := room
  serves _ := serves
  held := nofun
  open_end _ e he := by cases he
  last e he := by cases he

theorem expectsIn_congr {n k : Nat} (same : l.coming n = m.coming k) :
    l.ExpectsIn n results ↔ m.ExpectsIn k results := by
  rw [ExpectsIn, ExpectsIn, same]

theorem expects_of_coming_succ (same : ∀ n, l.coming (n + 1) = m.coming n) :
    l.Expects results ↔ m.Expects results := by
  constructor
  · rintro ⟨n, fills⟩
    cases n with
    | succ n => exact ⟨n, (expectsIn_congr (same n)).1 fills⟩
    | zero =>
      -- Nothing is pulled yet, so the entries that a pull adds are behind those that count.
      refine ⟨0, (expectsIn_congr (same 0)).1 ?_⟩
      rw [ExpectsIn] at fills ⊢
      by_cases running : l.status = .running
      · rw [coming_of_running running] at fills ⊢
        rw [supplied_zero, List.append_nil] at fills
        exact fills.append _ _
      · rwa [coming_of_halted running] at fills ⊢
  · rintro ⟨n, fills⟩
    exact ⟨n + 1, (expectsIn_congr (same n)).2 fills⟩

theorem coming_shift (l : Lexer σ K) (n : Nat) : l.shift.coming n = l.coming n := by
  simp only [coming, status_shift, source_shift, scopes_shift, shift_of_fresh (consumed_shift l)]

theorem Steady.shift (h : l.Steady) : l.shift.Steady where
  room := by simpa using h.room
  serves running := by simpa using h.serves (by simpa using running)
  held consumed := by simp at consumed
  open_end running e he := h.open_end (by simpa using running) e (l.stack_shift_suffix.mem he)
  last e he := by
    rw [stack_shift] at he
    split at he
    · rw [← List.tail_dropLast] at he
      exact h.last e (List.mem_of_mem_tail he)
    · exact h.last e he

/-- A source without another frame ends the lexer, which goes on with the entries on its stack. -/
theorem Steady.ended (h : l.Steady) (running : l.status = .running)
    (pulled : FrameSource.pull l.source = (.ok none, t)) :
    Steady { l with source := t, status := .stopped } ∧
      ∀ n, l.coming (n + 1) = coming { l with source := t, status := .stopped } n := by
  have halted : Lexer.status { l with source := t, status := .stopped } ≠ .running := nofun
  refine ⟨⟨h.room, nofun, h.held, nofun, h.last⟩, fun n => ?_⟩
  rw [coming_of_running running, supplied_of_none pulled, coming_of_halted halted, stack_shift,
    stack_shift, List.append_nil]

/-- A frame that was pulled is the last entry on the stack, and no longer to be pulled. -/
theorem Steady.pushed (h : l.Steady) (running : l.status = .running)
    (pulled : FrameSource.pull l.source = (.ok (some f), t))
    (rule : resolve? l.scopes f = some (action, scopes'))
    (serves : f.isSentinel = false → Serves t scopes')
    (hm : m = { l with
      source := t, scopes := scopes', stack := l.stack ++ [⟨f, action⟩]
      status := if f.isSentinel then .drained else .running }) :
    m.Steady ∧ ∀ n, l.coming (n + 1) = m.coming n := by
  have fresh := h.open_end running
  have stack : m.stack = l.stack ++ [⟨f, action⟩] := by rw [hm]
  have shifted : m.shift.stack = l.shift.stack ++ [⟨f, action⟩] :=
    stack_shift_push h.held (by rw [hm]) stack
  have going : m.status = .running ↔ f.isSentinel = false := by
    rw [hm]
    cases f.isSentinel <;> simp
  constructor
  · refine ⟨by rw [hm]; exact h.room, fun still => ?_, fun _ => by simp [stack], ?_, ?_⟩
    · rw [hm]
      exact serves (going.1 still)
    · intro still e he
      rw [stack, List.mem_append, List.mem_singleton] at he
      obtain he | rfl := he
      · exact fresh e he
      · exact going.1 still
    · rwa [stack, List.dropLast_concat]
  · intro n
    rw [coming_of_running running]
    cases last : f.isSentinel with
    | true =>
      have halted : m.status ≠ .running := fun still => by simp [going.1 still] at last
      rw [supplied_of_sentinel pulled last rule, coming_of_halted halted, shifted]
    | false =>
      rw [supplied_of_frame pulled last rule (serves last), coming_of_running (going.2 last),
        shifted, List.append_assoc, hm]
      rfl

/-- Pulling onto a stack with room moves an entry from the source to the stack, or finds that no
more follows. What is still to come stays the same. -/
theorem Steady.extend (h : l.Steady) (room : l.stack.length < l.capacity) :
    ∃ more m, l.extend = (.ok more, m) ∧ m.Steady ∧ (∀ n, l.coming (n + 1) = m.coming n) ∧
      m.consumed = l.consumed ∧ m.capacity = l.capacity ∧
      if more then l.status = .running ∧ ∃ e, m.stack = l.stack ++ [e]
      else m.stack = l.stack ∧ m.status ≠ .running := by
  by_cases running : l.status = .running
  · obtain ⟨t, pulled⟩ | ⟨f, t, action, scopes', pulled, rule, serves⟩ := (h.serves running).pull
    · obtain ⟨steady, same⟩ := h.ended running pulled
      exact ⟨false, _, by simp [Lexer.extend, pull, running, pulled], steady, same, rfl, rfl, rfl,
        nofun⟩
    · obtain ⟨steady, same⟩ := h.pushed running pulled rule serves rfl
      exact ⟨true, _, by simp [Lexer.extend, pull, running, pulled, rule, room], steady, same, rfl,
        rfl, running, _, rfl⟩
  · refine ⟨false, l, by simp [Lexer.extend, pull, running], h, fun n => ?_, rfl, rfl, rfl, running⟩
    rw [coming_of_halted running, coming_of_halted running]

theorem Steady.extendBy (h : l.Steady) {n : Nat} (room : l.stack.length + n ≤ l.capacity) :
    ∃ more m, l.extendBy n = (.ok more, m) ∧ m.Steady ∧
      ∀ results, l.Expects results ↔ m.Expects results := by
  induction n generalizing l with
  | zero => exact ⟨true, l, rfl, h, fun _ => .rfl⟩
  | succ n ih =>
    obtain ⟨more, m, extended, steady, same, -, capacity, stack⟩ := h.extend (by omega)
    rw [Lexer.extendBy, extended]
    cases more with
    | false => exact ⟨false, m, rfl, steady, fun _ => expects_of_coming_succ same⟩
    | true =>
      obtain ⟨-, e, pushed⟩ := stack
      obtain ⟨more, last, extended, steady, same'⟩ :=
        ih steady (by rw [pushed, capacity, List.length_append, List.length_singleton]; omega)
      exact ⟨more, last, extended, steady, fun _ => (expects_of_coming_succ same).trans (same' _)⟩

/-- Looking ahead leaves all that `lex` has still to give. -/
theorem Steady.peek (h : l.Steady) (level : Nat) : (l.peek level).2.Steady ∧
    ∀ results, l.Expects results ↔ (l.peek level).2.Expects results := by
  by_cases refused : l.capacity ≤ level
  · rw [Lexer.peek, if_pos refused]
    exact ⟨h, fun _ => .rfl⟩
  · by_cases deep : level + 1 ≤ l.stack.length
    · have held : level + 1 - l.stack.length = 0 := by omega
      rw [Lexer.peek, if_neg refused, held, Lexer.extendBy]
      exact ⟨h, fun _ => .rfl⟩
    · obtain ⟨more, m, extended, steady, same⟩ :=
        h.extendBy (n := level + 1 - l.stack.length) (by omega)
      rw [Lexer.peek, if_neg refused, extended]
      exact ⟨steady, same⟩

/-! ## Turns -/

theorem coming_consume (fresh : l.consumed = false) (ahead : l.stack = e :: rest) (n : Nat) :
    l.coming n = (e :: (coming { l with consumed := true } n).1,
      (coming { l with consumed := true } n).2) := by
  simp only [coming, stack_shift, fresh, ahead]
  split <;> simp

theorem Steady.consume (h : l.Steady) (ahead : l.stack = e :: rest) :
    Steady { l with consumed := true } :=
  ⟨h.room, h.serves, fun _ => by simp [ahead], h.open_end, h.last⟩

theorem Steady.fail (h : l.Steady) : l.fail.Steady :=
  ⟨h.room, nofun, nofun, nofun, nofun⟩

theorem coming_fail (l : Lexer σ K) (n : Nat) : l.fail.coming n = ([], true) :=
  coming_of_halted (by simp [fail, discard]) n

/-- What `lex` makes of the first entry: it takes the entry and goes on, or it gives the first of
the results that it had still to give. -/
inductive Takes (l : Lexer σ K) :
    Option (Option (Except LexError (Token K))) × Lexer σ K → Prop where
  | skip {m : Lexer σ K} : m.Steady → (∀ n results, l.ExpectsIn n results ↔ m.ExpectsIn n results) →
    m.shift.stack.length < l.shift.stack.length → Takes l (none, m)
  | result {m : Lexer σ K} {r : Option (Except LexError (Token K))} : m.Steady →
    (∀ n s results, l.ExpectsIn n (s :: results) ↔ s = r ∧ m.ExpectsIn n results) →
    Takes l (some r, m)

theorem Steady.takes (h : l.Steady) (fresh : l.consumed = false) (ahead : l.stack = e :: rest) :
    l.Takes (l.classify e) := by
  have first := coming_consume fresh ahead
  have steady := h.consume ahead
  rcases made : e.result? with - | error | t
  · rw [classify_of_none made]
    split
    · next sentinel =>
      -- The sentinel is the last entry, and nothing is pulled any more.
      have halted : l.status ≠ .running := fun running => by
        have := h.open_end running e (by simp [ahead])
        simp [sentinel.2] at this
      obtain rfl : rest = [] := by
        cases rest with
        | nil => rfl
        | cons second rest =>
          have := h.last e (by simp [ahead])
          simp [sentinel.2] at this
      have nothing (n : Nat) : coming { l with consumed := true } n = ([], true) := by
        rw [coming_of_halted (by exact halted), stack_shift, ahead]
        rfl
      refine .result steady fun n s results => ?_
      rw [ExpectsIn, first, fills_of_none made, ExpectsIn, nothing, fills_end]
    · refine .skip steady (fun n results => ?_) (by simp [stack_shift, fresh, ahead])
      rw [ExpectsIn, first, fills_of_none made]
      rfl
  · rw [classify_of_error made]
    refine .result steady.fail fun n s results => ?_
    rw [ExpectsIn, first, fills_of_error made, ExpectsIn, coming_fail]
  · rw [classify_of_token made]
    refine .result steady fun n s results => ?_
    rw [ExpectsIn, first, fills_of_token made]
    rfl

/-- What a turn makes of all that is still to come: it goes on with it, and takes an entry or
spends a pull if another result is to come, or it gives the first of the results. -/
inductive Turned (l : Lexer σ K) :
    Option (Option (Except LexError (Token K))) × Lexer σ K → Prop where
  | skip {m : Lexer σ K} : m.Steady → (∀ results, l.Expects results ↔ m.Expects results) →
    (∀ n r results, l.ExpectsIn n (r :: results) → ∃ k, m.ExpectsIn k (r :: results) ∧
      k + m.shift.stack.length < n + l.shift.stack.length) → Turned l (none, m)
  | result {m : Lexer σ K} {r : Option (Except LexError (Token K))} : m.Steady →
    (∀ s results, l.Expects (s :: results) ↔ s = r ∧ m.Expects results) → Turned l (some r, m)

theorem Takes.turned {out : Option (Option (Except LexError (Token K))) × Lexer σ K}
    (h : m.Takes out) (same : ∀ results, l.Expects results ↔ m.Expects results)
    (spent : ∀ n r results, l.ExpectsIn n (r :: results) → ∃ k, m.ExpectsIn k (r :: results) ∧
      k + m.shift.stack.length ≤ n + l.shift.stack.length) : l.Turned out := by
  cases h with
  | skip steady taken shorter =>
    refine .skip steady (fun results => (same results).trans ?_) fun n r results fills => ?_
    · exact exists_congr fun n => taken n results
    · obtain ⟨k, fills, le⟩ := spent n r results fills
      exact ⟨k, (taken k _).1 fills, by omega⟩
  | result steady taken =>
    refine .result steady fun s results => (same _).trans ?_
    simp only [Expects, taken, exists_and_left]

theorem Steady.turn (h : l.Steady) : l.Turned l.turn := by
  have same (n : Nat) (results : List (Option (Except LexError (Token K)))) :
      l.ExpectsIn n results ↔ l.shift.ExpectsIn n results := expectsIn_congr (coming_shift l n).symm
  have twice : l.shift.shift = l.shift := shift_of_fresh (consumed_shift l)
  rw [Lexer.turn]
  split
  · next e rest ahead =>
    refine (h.shift.takes (consumed_shift l) ahead).turned
      (fun results => exists_congr fun n => same n results) fun n r results fills => ?_
    exact ⟨n, (same n _).1 fills, Nat.le_of_eq (by rw [twice])⟩
  · next empty =>
    obtain ⟨more, m, extended, steady, later, fresh, capacity, stack⟩ :=
      h.shift.extend (by rw [empty]; exact h.shift.room)
    rw [consumed_shift] at fresh
    have through (results : List (Option (Except LexError (Token K)))) :
        l.Expects results ↔ m.Expects results :=
      (exists_congr fun n => same n results).trans (expects_of_coming_succ later)
    rw [extended]
    cases more with
    | false =>
      obtain ⟨stack, halted⟩ := stack
      have nothing (n : Nat) : m.coming n = ([], true) := by
        rw [coming_of_halted halted, shift_of_fresh fresh, stack, empty]
      refine .result steady fun s results => (through _).trans ?_
      simp only [Expects, ExpectsIn, nothing, fills_end, exists_and_left]
    | true =>
      obtain ⟨running, e, stack⟩ := stack
      rw [empty, List.nil_append] at stack
      simp only [stack]
      refine (steady.takes fresh stack).turned through fun n r results fills => ?_
      cases n with
      | zero =>
        -- Without a pull nothing is at hand that could give a result.
        rw [same, ExpectsIn, coming_of_running running, twice, empty] at fills
        exact absurd fills not_fills
      | succ n =>
        refine ⟨n, (expectsIn_congr (later n)).1 ((same _ _).1 fills), ?_⟩
        rw [shift_of_fresh fresh, stack, List.length_singleton]
        omega

/-! ## Calls -/

/-- A call of `lex` gives the first of the results that it had still to give. -/
theorem Steady.lexes (h : l.Steady) (lexes : Lexes l r m) :
    m.Steady ∧ ∀ s results, l.Expects (s :: results) ↔ s = r ∧ m.Expects results := by
  induction lexes with
  | result turned =>
    have turn := h.turn
    rw [turned] at turn
    cases turn with
    | result steady expects => exact ⟨steady, expects⟩
  | skip turned _ ih =>
    have turn := h.turn
    rw [turned] at turn
    cases turn with
    | skip steady same _ =>
      obtain ⟨last, expects⟩ := ih steady
      exact ⟨last, fun s results => (same _).trans (expects s results)⟩

/-- A call of `lex` returns if another result is to come. -/
theorem Steady.returns (h : l.Steady) {n : Nat} (expects : l.ExpectsIn n (r :: results)) :
    ∃ m, Lexes l r m := by
  -- Every turn takes an entry from the stack or spends one of the `n` pulls.
  induction measure : n + l.shift.stack.length using Nat.strongRecOn generalizing l n with
  | ind _ ih =>
    have turn := h.turn
    rcases turned : l.turn with ⟨_ | s, m⟩
    · rw [turned] at turn
      cases turn with
      | skip steady _ spent =>
        obtain ⟨k, expects, lt⟩ := spent n r results expects
        obtain ⟨last, lexes⟩ := ih _ (by omega) steady expects rfl
        exact ⟨last, .skip turned lexes⟩
    · rw [turned] at turn
      cases turn with
      | result steady first =>
        obtain ⟨rfl, -⟩ := (first r results).1 ⟨n, expects⟩
        exact ⟨m, .result turned⟩

theorem gives_nil : l.Gives [] results ↔ results = [] := by
  constructor
  · rintro ⟨run, last, -, calls, rfl⟩
    rw [List.map_eq_nil_iff] at calls
    rw [calls]
    rfl
  · rintro rfl
    exact ⟨[], l, .nil l, rfl, rfl⟩

theorem gives_lex {calls : List Call} : l.Gives (.lex :: calls) results ↔
    ∃ r m rest, Lexes l r m ∧ m.Gives calls rest ∧ results = r :: rest := by
  constructor
  · rintro ⟨_, last, runs, same, rfl⟩
    cases runs with
    | nil => cases same
    | cons performs runs =>
      obtain ⟨first, rfl⟩ := List.cons_eq_cons.1 same
      cases performs <;> cases first
      next lexes => exact ⟨_, _, _, lexes, ⟨_, last, runs, rfl, rfl⟩, rfl⟩
  · rintro ⟨r, m, rest, lexes, ⟨run, last, runs, rfl, rfl⟩, rfl⟩
    exact ⟨_, last, .cons (.lex lexes) runs, rfl, rfl⟩

theorem gives_peek {level : Nat} {calls : List Call} :
    l.Gives (.peek level :: calls) results ↔ (l.peek level).2.Gives calls results := by
  constructor
  · rintro ⟨_, last, runs, same, rfl⟩
    cases runs with
    | nil => cases same
    | cons performs runs =>
      obtain ⟨first, rfl⟩ := List.cons_eq_cons.1 same
      cases performs <;> cases first
      exact ⟨_, last, runs, rfl, rfl⟩
  · rintro ⟨run, last, runs, rfl, rfl⟩
    exact ⟨_, last, .cons (.peek l level) runs, rfl, rfl⟩

/-- Calls of `lex` and `peek` return with the results that `lex` has still to give. -/
theorem Steady.gives (h : l.Steady) {calls : List Call}
    (looking : ∀ c ∈ calls, c = .lex ∨ ∃ level, c = .peek level) :
    l.Gives calls results ↔ results.length = calls.countP Call.isLex ∧ l.Expects results := by
  induction calls generalizing l results with
  | nil =>
    rw [gives_nil, List.countP_nil, List.length_eq_zero_iff, iff_self_and]
    rintro rfl
    exact ⟨0, fills_nil _ _⟩
  | cons c calls ih =>
    have ⟨first, after⟩ := List.forall_mem_cons.1 looking
    obtain rfl | ⟨level, rfl⟩ := first
    · rw [gives_lex, List.countP_cons_of_pos rfl]
      constructor
      · rintro ⟨r, m, rest, lexes, gives, rfl⟩
        obtain ⟨steady, first⟩ := h.lexes lexes
        obtain ⟨length, expects⟩ := (ih steady after).1 gives
        exact ⟨by rw [List.length_cons, length], (first r rest).2 ⟨rfl, expects⟩⟩
      · rintro ⟨length, n, expects⟩
        obtain ⟨r, rest, rfl⟩ := List.exists_cons_of_length_eq_add_one length
        obtain ⟨m, lexes⟩ := h.returns expects
        obtain ⟨steady, first⟩ := h.lexes lexes
        obtain ⟨-, expects⟩ := (first r rest).1 ⟨n, expects⟩
        exact ⟨r, m, rest, lexes, (ih steady after).2 ⟨by simpa using length, expects⟩, rfl⟩
    · obtain ⟨steady, same⟩ := h.peek level
      rw [gives_peek, ih steady after, ← same, List.countP_cons_of_neg (by simp [Call.isLex])]

theorem expects_start {g : Grammar K} {source : σ} (serves : Serves source [g]) (capacity : Nat) :
    (start g source capacity).Expects results ↔ Reads g source results := by
  refine exists_congr fun n => ?_
  obtain ⟨entries, ruled⟩ := serves.ruled n
  simp [ExpectsIn, coming, start, shift, supplied, ruled]

/-- Over a source that never fails and whose frames all have a rule, calls of `lex` give the same
results with calls of `peek` in between as without them: those read off the frames of the source.
If the source ends, all the calls return. -/
theorem peeks_invisible (g : Grammar K) (source : σ) (capacity : Nat) (room : 0 < capacity)
    (reliable : Reliable source)
    (ruled : ∀ n, ∃ entries, entries? [g] (framesOf (answers source n)) = some entries)
    (calls : List Call) (looking : ∀ c ∈ calls, c = .lex ∨ ∃ level, c = .peek level) :
    (∀ results, (start g source capacity).Gives calls results ↔
      (start g source capacity).Gives (calls.filter Call.isLex) results) ∧
    (∀ results, (start g source capacity).Gives calls results ↔
      results.length = calls.countP Call.isLex ∧ Reads g source results) ∧
    ((∃ n, ends (answers source n) = true) →
      ∃ results, (start g source capacity).Gives calls results) := by
  have serves : Serves source [g] := ⟨reliable, ruled⟩
  have steady := steady_start serves room
  have gives {calls : List Call} (looking : ∀ c ∈ calls, c = .lex ∨ ∃ level, c = .peek level)
      (results : List (Option (Except LexError (Token K)))) :
      (start g source capacity).Gives calls results ↔
        results.length = calls.countP Call.isLex ∧ Reads g source results := by
    rw [steady.gives looking, expects_start serves]
  refine ⟨fun results => ?_, gives looking, ?_⟩
  · rw [gives looking, gives fun c hc => looking c (List.mem_filter.1 hc).1, List.countP_filter]
    simp only [Bool.and_self]
  · rintro ⟨n, closed⟩
    obtain ⟨entries, known⟩ := ruled n
    obtain ⟨results, length, fills⟩ := exists_fills entries (calls.countP Call.isLex)
    exact ⟨results, (gives looking results).2 ⟨length, n, entries, known, by rwa [closed]⟩⟩

end Lexer

/-- Accepts a single character. -/
def Automaton.character : Automaton where
  states := #[{ otherwise := some 1 }, { accepting := true }]
  nonempty := by simp
  wellFormed := by simp [Automaton.State.WellFormed]
  silent := by decide

/-- Blanks are skipped, names are looked up, and characters in brackets pass. -/
def Grammar.bracketed : Grammar String :=
  .plain ⟨.character, .skip⟩ <| .plain ⟨.character, .lookup ⟨"name", [("f", "function")]⟩⟩ <|
    .nesting ⟨.character, .skip⟩ (.plain ⟨.character, .pass id⟩ .nil) .nil

/-- Frames for ` (x)fg`, as a source may give them. -/
def Script.bracketed : Script where
  answers := [.ok (some ⟨some 0, " ", ⟨0, 0⟩, 0⟩), .ok (some ⟨some 2, "(x)", ⟨0, 1⟩, 0⟩),
    .ok (some ⟨some 0, "x", ⟨0, 2⟩, 1⟩), .ok (some (.ending ⟨0, 4⟩ 1)),
    .ok (some ⟨some 1, "f", ⟨0, 4⟩, 0⟩), .ok (some ⟨some 1, "g", ⟨0, 5⟩, 0⟩),
    .ok (some (.ending ⟨0, 6⟩ 0))]

/-- The skipped blank is looked at before the first token, and more than the stack can hold is
asked for. -/
theorem Lexer.peeks_invisible_in_brackets : (Lexer.start .bracketed Script.bracketed 2).Gives
    [.peek 0, .lex, .peek 7, .peek 1, .lex, .lex, .peek 0, .lex]
    [some (.ok ⟨"x", ⟨0, 2⟩⟩), some (.ok ⟨"function", ⟨0, 4⟩⟩),
      some (.error (.unknownLexeme "name" "g" ⟨0, 5⟩)), none] := by
  have reliable : Reliable Script.bracketed := reliable_script (by simp [Script.bracketed])
  have ruled (n : Nat) : ∃ entries,
      entries? [.bracketed] (framesOf (answers Script.bracketed n)) = some entries := by
    match n with
    | 0 | 1 | 2 | 3 | 4 | 5 | 6 | n + 7 => exact ⟨_, rfl⟩
  have looking : ∀ c ∈ [.peek 0, .lex, .peek 7, .peek 1, .lex, .lex, .peek 0, .lex],
      c = Call.lex ∨ ∃ level, c = Call.peek level := by simp
  refine ((peeks_invisible _ _ 2 (by decide) reliable ruled _ looking).2.1 _).2 ?_
  exact ⟨rfl, 7, _, rfl, ⟨1, List.prefix_rfl⟩, .inr (.inl rfl)⟩

end Munch
