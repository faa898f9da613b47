import Munch.Proofs.Ending
import Munch.Proofs.Literals
import Munch.Proofs.Nesting

/-!
# Grammars whose tables miss nothing

A rule that looks up its matches is covered if its table has every text that its automaton accepts,
and a grammar is covered if all its rules are, the rules of inner grammars included. The open
grammars of a lexer all come from the grammar that it began with. So over the scanner of a covered
grammar no lookup misses. A lexer that only makes tokens has no frames on its stack when it pulls,
so the stack is never full either, and what is left of the ways to fail is a failed read.

## Main definitions

* `Rule.Covered`, `Grammar.Covered`: the tables have what the automata accept.
* `Lexer.Draining`: the invariant of a lexer that only makes tokens.
* `Lexer.FailsOnlyBy`: tokens, with a failed read behind them if there is one.
* `Lexer.drain_of_covered`: all that a lexer of a covered grammar gives.
-/

namespace Munch

/-- Every member has the property, those of inner families included. -/
def Family.All {α : Type} (P : α → Prop) : Family α → Prop
  | nil => True
  | plain a rest => P a ∧ All P rest
  | nesting a inner rest => P a ∧ All P inner ∧ All P rest

theorem Family.All.get? {α : Type} {P : α → Prop} {f : Family α} (h : f.All P) {i : Nat} {a : α}
    {inner : Option (Family α)} (found : f.get? i = some (a, inner)) :
    P a ∧ ∀ g ∈ inner, g.All P := by
  induction f generalizing i with
  | nil => cases found
  | plain b rest ih =>
    cases i with
    | zero =>
      cases found
      exact ⟨h.1, nofun⟩
    | succ i => exact ih h.2 found
  | nesting b own rest _ ih =>
    cases i with
    | zero =>
      cases found
      refine ⟨h.1, fun g hg => ?_⟩
      cases hg
      exact h.2.1
    | succ i => exact ih h.2.2 found

variable {K : Type}

theorem Table.isSome_get? {t : Table K} {lexeme : String} :
    (t.get? lexeme).isSome ↔ lexeme ∈ t.lexemes := by
  rw [Table.get?, Table.lexemes, List.lookup_isSome_iff]
  simp

/-- The table of a rule that looks up has every text that the automaton accepts. -/
def Rule.Covered (r : Rule K) : Prop :=
  ∀ table, r.action = .lookup table → ∀ fresh w,
    r.automaton.Accepts fresh w ∨ r.automaton.AcceptsAtEnd fresh w →
      String.ofList w ∈ table.lexemes

/-- Literals may be looked up in any table that has them all. -/
theorem Rule.covered_literals {t : Table K} {texts : List String} {a : Automaton}
    (built : Automaton.literals texts = .ok a) (there : texts ⊆ t.lexemes) :
    Rule.Covered ⟨a, .lookup t⟩ := by
  intro table action fresh w accepts
  cases action
  exact there (Automaton.mem_of_literals built accepts)

/-- All rules are covered. -/
def Grammar.Covered (g : Grammar K) : Prop := Family.All Rule.Covered g

/-- A lookup of a covered rule does not miss. -/
theorem Rule.Covered.result? {r : Rule K} (h : r.Covered) {fresh : Bool} {w : List Char}
    (accepts : r.automaton.Accepts fresh w ∨ r.automaton.AcceptsAtEnd fresh w) {f : Frame}
    (text : f.text = String.ofList w) (error : LexError) :
    (Entry.mk f (some r.action)).result? ≠ some (.error error) := by
  rw [Entry.result?]
  cases action : r.action with
  | skip => simp
  | pass kind => simp
  | lookup table =>
    obtain ⟨kind, there⟩ := Option.isSome_iff_exists.1
      (Table.isSome_get?.2 (h table action fresh w accepts))
    simp [text, there]

namespace Scanner

variable {s : Scanner}

/-- What a scanner with passes under way hands out when no stop is requested. -/
inductive HandsOut (s : Scanner) : Option (Except ScanError Frame) × Scanner → Prop where
  | frame {f : Frame} {t : Scanner} : f.isSentinel = false → t.passes ≠ [] →
    HandsOut s (some (.ok f), t)
  | sentinel {f : Frame} {t : Scanner} : f.isSentinel = true → s.input.failure = none →
    HandsOut s (some (.ok f), t)
  | failure {e : ScanError} {t : Scanner} : s.input.failure = some e.error →
    HandsOut s (some (.error e), t)

theorem Sound.handsOut (sound : s.Sound) (going : s.passes ≠ []) : s.HandsOut (s.next false) := by
  obtain ⟨input, passes⟩ := s
  cases passes with
  | nil => exact absurd rfl going
  | cons p around =>
    have agrees := agrees_sourceOf sound
    rcases scanned : scanInnermost p around input with ⟨⟨m, q⟩ | pos | ⟨e, pos⟩, left⟩ <;>
      have scan := scan_of_scanInnermost scanned
    · rw [next_of_found scanned]
      exact .frame rfl (by simp)
    · rw [next_of_exhausted scanned]
      cases around with
      | nil => exact .sentinel rfl (Pass.failure_of_scan_exhausted agrees scan)
      | cons q around => exact .frame rfl (by simp)
    · rw [next_of_failed scanned]
      have failing := Pass.failure_of_scan_failed agrees scan
      cases around with
      | nil => exact .failure failing
      | cons q around => cases failing

end Scanner

namespace Lexer

variable {l m : Lexer Inline K} {e : Entry K} {failure : Option ReadError}

/-- The grammars that a frame leaves open were open before, or are inner grammars of these. So what
is true of all rules stays so. -/
theorem all_of_resolve {P : Rule K → Prop} {scopes after : List (Grammar K)} {f : Frame}
    {action : Option (Action K)} (all : ∀ g ∈ scopes, Family.All P g)
    (h : resolve? scopes f = some (action, after)) : ∀ g ∈ after, Family.All P g := by
  rw [resolve?] at h
  split at h
  · cases h
    exact fun g hg => all g (List.mem_of_mem_take hg)
  · obtain ⟨g, there, h⟩ := Option.bind_eq_some_iff.1 h
    obtain ⟨⟨rule, inner⟩, found, h⟩ := Option.bind_eq_some_iff.1 h
    cases h
    obtain ⟨-, inside⟩ := (all g (List.mem_of_getElem? there)).get? found
    intro g' hg
    obtain hg | hg := List.mem_append.1 hg
    · exact all g' (List.mem_of_mem_take hg)
    · exact inside g' (Option.mem_toList.1 hg)

/-- Under covered grammars no frame is an error. -/
theorem MadeBy.result? (made : l.MadeBy e) (covered : ∀ g ∈ l.scopes, g.Covered)
    (error : LexError) : e.result? ≠ some (.error error) := by
  cases made with
  | matched _ _ here _ found accepts =>
    exact ((covered _ (List.mem_of_getElem? here)).get? found).1.result? accepts rfl error
  | ending => nofun

/-- The sentinel is the end of a pass. -/
theorem MadeBy.action_of_sentinel (made : l.MadeBy e) (last : e.frame.isSentinel = true) :
    e.action = none := by
  cases made with
  | matched => cases last
  | ending => rfl

/-- The frames so far were made into tokens or skipped, and more are to come, up to the sentinel or
to the failure of the input. -/
structure Draining (failure : Option ReadError) (l : Lexer Inline K) : Prop where
  running : l.status = .running
  room : 0 < l.capacity
  taken : l.shift.stack = []
  coherent : l.Coherent
  covered : ∀ g ∈ l.scopes, g.Covered
  unraised : l.source.raised = false
  going : l.source.scanner.passes ≠ []
  failure_eq : l.source.scanner.input.failure = failure

/-- What a call of `lex` replies. -/
inductive Yields (failure : Option ReadError) :
    Option (Except LexError (Token K)) × Lexer Inline K → Prop where
  | token {t : Token K} {m : Lexer Inline K} : Draining failure m → Yields failure (some (.ok t), m)
  | ended {m : Lexer Inline K} : failure = none → m.Over → Yields failure (none, m)
  | failed {e : ScanError} {m : Lexer Inline K} : failure = some e.error → m.Over →
    Yields failure (some (.error (.scan e)), m)

/-- What a pull comes to. -/
inductive Pulled (failure : Option ReadError) (l : Lexer Inline K) :
    Except LexError (Option (Entry K)) × Lexer Inline K → Prop where
  | entry {e : Entry K} {m : Lexer Inline K} : l.MadeBy e → e.frame.isSentinel = false →
    m.stack = l.stack → Draining failure m → Pulled failure l (.ok (some e), m)
  | sentinel {e : Entry K} {m : Lexer Inline K} : l.MadeBy e → e.frame.isSentinel = true →
    m.stack = l.stack → m.capacity = l.capacity → failure = none → m.status ≠ .running →
    Pulled failure l (.ok (some e), m)
  | failed {e : ScanError} {m : Lexer Inline K} : failure = some e.error → m.Over →
    Pulled failure l (.error (.scan e), m)

theorem Draining.shift (h : Draining failure l) : Draining failure l.shift where
  running := by rw [status_shift, h.running]
  room := by rw [capacity_shift]; exact h.room
  taken := by rw [shift_of_fresh (consumed_shift l), h.taken]
  coherent := keeps_coherent.shift l h.coherent
  covered := by rw [scopes_shift]; exact h.covered
  unraised := by rw [source_shift, h.unraised]
  going := by rw [source_shift]; exact h.going
  failure_eq := by rw [source_shift, h.failure_eq]

/-- A frame that is handed out finds its rule. -/
theorem Draining.pull_frame (h : Draining failure l) {f : Frame} {t : Scanner}
    (called : l.source.scanner.next false = (some (.ok f), t)) :
    ∃ action scopes, resolve? l.scopes f = some (action, scopes) ∧ l.MadeBy ⟨f, action⟩ ∧
      (∀ g ∈ scopes, g.Covered) ∧ l.pull = (.ok (some ⟨f, action⟩), { l with
        source := { l.source with scanner := t }, scopes
        status := if f.isSentinel then .drained else .running }) := by
  have pulled : FrameSource.pull l.source = (.ok (some f), { l.source with scanner := t }) := by
    simp [FrameSource.pull, Inline.pull, h.unraised, called]
  rw [← h.unraised] at called
  obtain ⟨action, scopes, rule, made, -⟩ := h.coherent.resolve h.running called
  refine ⟨action, scopes, rule, made, all_of_resolve h.covered rule, ?_⟩
  rw [Lexer.pull, if_pos h.running, pulled]
  simp only [rule]

/-- A pull keeps the invariant, or it brings the sentinel or the failure of the input. -/
theorem Draining.pull (h : Draining failure l) : Pulled failure l l.pull := by
  obtain ⟨sound, -⟩ := h.coherent h.running
  have handed := sound.handsOut h.going
  have kept := (Scanner.sound_next sound false).2
  rcases called : l.source.scanner.next false with ⟨item, t⟩
  rw [called] at handed kept
  rw [h.failure_eq] at kept
  cases handed with
  | @frame f _ more going =>
    obtain ⟨action, scopes, -, made, covered, pulled⟩ := h.pull_frame called
    have coherent := h.coherent.pull.1
    simp only [pulled, more] at coherent ⊢
    have taken := h.taken
    rw [stack_shift] at taken
    exact .entry made more rfl { h with
      running := rfl
      taken := (stack_shift _).trans taken
      coherent, covered, going
      failure_eq := kept }
  | @sentinel f _ last readable =>
    obtain ⟨action, scopes, -, made, -, pulled⟩ := h.pull_frame called
    rw [pulled]
    exact .sentinel made last rfl rfl (h.failure_eq ▸ readable) (by simp [last])
  | @failure e _ failing =>
    have pulled : FrameSource.pull l.source =
        (.error (.scan e), { l.source with scanner := t }) := by
      simp [FrameSource.pull, Inline.pull, h.unraised, called]
    rw [Lexer.pull, if_pos h.running, pulled]
    exact .failed (h.failure_eq ▸ failing) (spent_fail _).over

/-- A turn skips a frame, or it has a result. -/
inductive Proceeds (failure : Option ReadError) :
    Option (Option (Except LexError (Token K))) × Lexer Inline K → Prop where
  | skip {m : Lexer Inline K} : Draining failure m → Proceeds failure (none, m)
  | result {r : Option (Except LexError (Token K))} {m : Lexer Inline K} :
    Yields failure (r, m) → Proceeds failure (some r, m)

/-- The only frame on the stack is left behind with its turn. -/
theorem Draining.consume (h : Draining failure l) (e : Entry K) :
    Draining failure { l with stack := [e], consumed := true } :=
  { h with taken := rfl }

/-- A frame goes on the empty stack, where there is room for it, and no frame is an error. -/
theorem Draining.turn (h : Draining failure l) : Proceeds failure l.turn := by
  have pulled := h.shift.pull
  have covered := h.shift.covered
  have room := h.shift.room
  rw [Lexer.turn, h.taken]
  dsimp only
  rw [Lexer.extend]
  generalize l.shift.pull = answer at pulled ⊢
  cases pulled with
  | @entry e m made more stack going =>
    rw [h.taken] at stack
    simp only [stack, List.length_nil, going.room, ↓reduceIte, List.nil_append]
    rcases found : e.result? with _ | error | t
    · rw [classify_of_none found, if_neg (by simp [more])]
      exact .skip (going.consume e)
    · exact absurd found (made.result? covered error)
    · rw [classify_of_token found]
      exact .result (.token (going.consume e))
  | @sentinel e m made last stack capacity readable halted =>
    have silent := made.action_of_sentinel last
    have nothing : e.result? = none := by rw [Entry.result?, silent]
    rw [h.taken] at stack
    simp only [stack, capacity, List.length_nil, room, ↓reduceIte, List.nil_append]
    rw [classify_of_none nothing, if_pos ⟨by simp [silent], last⟩]
    exact .result (.ended readable ⟨halted, rfl⟩)
  | failed failing finished => exact .result (.failed failing finished)

theorem Draining.lex (h : Draining failure l) : Yields failure l.lex := by
  induction l using Lexer.lex.induct with
  | case1 l r m turned =>
    have proceeds := h.turn
    rw [turned] at proceeds
    rw [lex_of_result turned]
    cases proceeds with
    | result yields => exact yields
  | case2 l m turned _ ih =>
    have proceeds := h.turn
    rw [turned] at proceeds
    rw [lex_of_skip turned]
    cases proceeds with
    | skip going => exact ih going

/-- Tokens, and behind them the failure of a read if there is one. -/
def FailsOnlyBy (failure : Option ReadError) (results : List (Except LexError (Token K))) : Prop :=
  ∃ tokens : List (Token K), match failure with
    | none => results = tokens.map .ok
    | some e => ∃ pos, results = tokens.map .ok ++ [.error (.scan ⟨e, pos⟩)]

theorem FailsOnlyBy.cons {results : List (Except LexError (Token K))}
    (h : FailsOnlyBy failure results) (t : Token K) : FailsOnlyBy failure (.ok t :: results) := by
  obtain ⟨tokens, rest⟩ := h
  refine ⟨t :: tokens, ?_⟩
  cases failure with
  | none => exact congrArg (List.cons (.ok t)) rest
  | some e =>
    obtain ⟨pos, rest⟩ := rest
    exact ⟨pos, congrArg (List.cons (.ok t)) rest⟩

theorem Draining.drain (h : Draining failure l) :
    FailsOnlyBy failure l.drain.1 ∧ l.drain.2.Over := by
  induction l using Lexer.drain.induct with
  | case1 l m lexed =>
    have yields := h.lex
    rw [lexed] at yields
    rw [drain_of_end lexed]
    cases yields with
    | ended readable finished =>
      rw [readable]
      exact ⟨⟨[], rfl⟩, finished⟩
  | case2 l e m lexed =>
    have yields := h.lex
    rw [lexed] at yields
    rw [drain_of_error lexed]
    cases yields with
    | failed failing finished =>
      rw [failing]
      exact ⟨⟨[], _, rfl⟩, finished⟩
  | case3 l t m lexed _ _ _ _ ih =>
    have yields := h.lex
    rw [lexed] at yields
    rw [drain_of_token lexed]
    cases yields with
    | token going =>
      obtain ⟨rest, finished⟩ := ih going
      exact ⟨rest.cons t, finished⟩

/-- At the beginning no frame was made into a token. -/
theorem draining_start {g : Grammar K} (covered : g.Covered) (input : Input) {capacity : Nat}
    (room : 0 < capacity) :
    Draining input.failure (start g ⟨Scanner.start g.automata input, false⟩ capacity) where
  running := rfl
  room := room
  taken := rfl
  coherent := coherent_start g input capacity
  covered := by simpa [start] using covered
  unraised := rfl
  going := by simp [start, Scanner.start]
  failure_eq := rfl

/-- A lexer over the scanner of a covered grammar gives tokens up to the end of its input or up to
the failure of it, and then nothing more. -/
theorem drain_of_covered {g : Grammar K} (covered : g.Covered) (input : Input) {capacity : Nat}
    (room : 0 < capacity) :
    let first : Lexer Inline K := start g ⟨Scanner.start g.automata input, false⟩ capacity
    FailsOnlyBy input.failure first.drain.1 ∧ first.drain.2.Over :=
  (draining_start covered input room).drain

end Lexer

end Munch
