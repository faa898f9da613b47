import Munch.Command.Arrival
import Munch.Proofs.Command
import Munch.Proofs.Continuing
import Munch.Proofs.Reader

/-!
# Runs over a text that is still arriving

What has arrived of a text is an input that fails where the whole text goes on. So pulls of a source
and calls of a lexer come to the failure or find the same as over the whole text. What a run writes
over the text that has arrived is therefore what it writes first later on, and a run that does not
come to the rest of the text writes nothing else.

## Main definitions

* `UntilFailure`: sources whose pulls find the same until the failure.
* `Lexer.SameOver`: lexers in the same state over such sources.
* `Command.run_followedBy`: a run over what has arrived beside the run over what arrives later.
-/

namespace Munch

variable {e : ReadError} {more i j : Input}

/-! ## Sources -/

/-- The answer reports the failure. -/
def Lexer.FailsBy (e : ReadError) {α : Type} (a : Except LexError α) : Prop :=
  ∃ pos, a = .error (.scan ⟨e, pos⟩)

/-- Pulls of related sources find the same until the failure. -/
structure UntilFailure {σ : Type} [FrameSource σ] (e : ReadError) (R : σ → σ → Prop) : Prop where
  pull {s t : σ} : R s t → SameUnless (Lexer.FailsBy e) R (FrameSource.pull s) (FrameSource.pull t)
  stop {s t : σ} : R s t → R (FrameSource.stop s) (FrameSource.stop t)

/-- Scanners that are pulled, one over an input that goes on where that of the other fails. -/
structure Inline.GoesOn (e : ReadError) (more : Input) (s t : Inline) : Prop where
  scanner : Scanner.GoesOn e more s.scanner t.scanner
  raised : t.raised = s.raised

theorem Inline.untilFailure (e : ReadError) (more : Input) : UntilFailure e (GoesOn e more) where
  pull {s t} h := by
    obtain ⟨scanner, raised⟩ := t
    obtain rfl : raised = s.raised := h.raised
    rcases called : s.scanner.next s.raised with ⟨result, left⟩
    simp only [FrameSource.pull, Inline.pull]
    obtain ⟨pos, rfl⟩ | ⟨left', called', still⟩ :=
      (Scanner.next_goesOn s.raised h.scanner).of_eq called
    · rw [called]
      exact .fails ⟨pos, rfl⟩
    · rw [called, called']
      rcases result with _ | e' | f <;> exact .same ⟨still, rfl⟩
  stop h := ⟨h.scanner, rfl⟩

namespace Channel

/-- Channels between two pulls, one over an input that goes on where that of the other fails. -/
inductive GoesOn (e : ReadError) (more : Input) : Channel → Channel → Prop where
  | ready {c : Channel} {s t : Scanner} : c.producer = .ready s → c.continuation = .settled →
    Scanner.GoesOn e more s t → GoesOn e more c { c with producer := .ready t }
  | gone {c : Channel} : c.producer = .gone → GoesOn e more c c

/-- A pull of a channel whose producer was between two calls of its scanner. -/
theorem pull_of_ready {c : Channel} {s : Scanner} (ready : c.producer = .ready s)
    (settled : c.continuation = .settled) (connected : c.connected = true) :
    FrameSource.pull c = match s.next c.raised with
      | (some item, t) =>
        (answer item, { c with producer := .ready t, finished := c.finished || isLast item })
      | (none, _) => (if c.finished || c.raised then .ok none else .error .disconnected,
        { c with producer := .gone, connected := false }) := by
  have worked : c.settle = { c with producer := completed (s.next c.raised) } := by
    simp [settle, work, ready, settled]
  simp only [FrameSource.pull, pull, pullWithin?, connected, worked, receive?]
  rcases s.next c.raised with ⟨_ | item, t⟩ <;> simp [completed]

theorem pull_of_deaf {c : Channel} (deaf : ¬c.connected = true) :
    FrameSource.pull c = (.ok none, c) := by
  simp [FrameSource.pull, pull, pullWithin?, deaf]

theorem pull_of_gone {c : Channel} (gone : c.producer = .gone) (connected : c.connected = true) :
    FrameSource.pull c = (if c.finished || c.raised then .ok none else .error .disconnected,
      { c with connected := false }) := by
  have worked : c.settle = c := by simp [settle, work, gone]
  simp [FrameSource.pull, pull, pullWithin?, connected, worked, receive?, gone]

theorem untilFailure (e : ReadError) (more : Input) : UntilFailure e (GoesOn e more) where
  pull {c d} h := by
    by_cases connected : c.connected = true
    · cases h with
      | @ready s t ready settled still =>
        have first := pull_of_ready ready settled connected
        have second := pull_of_ready (c := { c with producer := .ready t }) rfl settled connected
        rcases called : s.next c.raised with ⟨result, left⟩
        obtain ⟨pos, rfl⟩ | ⟨left', called', still⟩ :=
          (Scanner.next_goesOn c.raised still).of_eq called
        · rw [first, called]
          exact .fails ⟨pos, rfl⟩
        · rw [first, second, called, called']
          cases result with
          | none => exact .same (.gone rfl)
          | some item => exact .same (.ready rfl settled still)
      | gone gone =>
        rw [pull_of_gone gone connected]
        exact .same (.gone gone)
    · cases h with
      | @ready s t ready settled still =>
        rw [pull_of_deaf connected, pull_of_deaf (c := { c with producer := .ready t }) connected]
        exact .same (.ready ready settled still)
      | gone gone =>
        rw [pull_of_deaf connected]
        exact .same (.gone gone)
  stop {c d} h := by
    cases h with
    | ready ready settled still =>
      simp only [FrameSource.stop, hangUp]
      split <;> exact .ready ready settled still
    | gone gone =>
      simp only [FrameSource.stop, hangUp]
      split <;> exact .gone gone

end Channel

/-! ## Lexers -/

namespace Lexer

variable {σ K : Type} {R : σ → σ → Prop} {l m : Lexer σ K}

/-- Lexers in the same state over related sources. -/
def SameOver (R : σ → σ → Prop) (l m : Lexer σ K) : Prop := ∃ t, m = l.withSource t ∧ R l.source t

theorem SameOver.stack_eq (h : SameOver R l m) : m.stack = l.stack := by
  obtain ⟨t, rfl, -⟩ := h
  rfl

theorem SameOver.shift (h : SameOver R l m) : SameOver R l.shift m.shift := by
  obtain ⟨t, rfl, related⟩ := h
  exact ⟨t, shift_withSource l t, by rwa [source_shift]⟩

variable [FrameSource σ]

theorem SameOver.stop (alike : UntilFailure e R) (h : SameOver R l m) :
    SameOver R l.stop m.stop := by
  obtain ⟨t, rfl, related⟩ := h
  have status : (l.withSource t).status = l.status := rfl
  rw [Lexer.stop, Lexer.stop, status]
  split
  · exact ⟨FrameSource.stop t, rfl, alike.stop related⟩
  · exact ⟨t, rfl, related⟩

theorem SameOver.pull (alike : UntilFailure e R) (h : SameOver R l m) :
    SameUnless (FailsBy e) (SameOver R) l.pull m.pull := by
  obtain ⟨t, rfl, related⟩ := h
  have status : (l.withSource t).status = l.status := rfl
  have source : (l.withSource t).source = t := rfl
  have scopes : (l.withSource t).scopes = l.scopes := rfl
  rw [Lexer.pull, Lexer.pull, status, source]
  by_cases running : l.status = .running
  · rw [if_pos running, if_pos running]
    rcases pulled : FrameSource.pull l.source with ⟨answer, s'⟩
    obtain ⟨pos, rfl⟩ | ⟨t', pulled', still⟩ := (alike.pull related).of_eq pulled
    · exact .fails ⟨pos, rfl⟩
    · rw [pulled']
      rcases answer with e' | _ | f <;> dsimp only
      · exact .same ⟨_, rfl, alike.stop still⟩
      · exact .same ⟨_, rfl, still⟩
      · rw [scopes]
        cases rule : resolve? l.scopes f with
        | none => exact .same ⟨_, rfl, alike.stop still⟩
        | some found => exact .same ⟨_, rfl, still⟩
  · rw [if_neg running, if_neg running]
    exact .same ⟨t, rfl, related⟩

theorem SameOver.extend (alike : UntilFailure e R) (h : SameOver R l m) :
    SameUnless (FailsBy e) (SameOver R) l.extend m.extend := by
  rcases pulled : l.pull with ⟨answer, l'⟩
  rw [Lexer.extend, Lexer.extend]
  obtain ⟨pos, rfl⟩ | ⟨m', pulled', t, rfl, related⟩ := (h.pull alike).of_eq pulled
  · rw [pulled]
    exact .fails ⟨pos, rfl⟩
  · rw [pulled, pulled']
    rcases answer with e' | _ | entry <;> dsimp only
    · exact .same ⟨t, rfl, related⟩
    · exact .same ⟨t, rfl, related⟩
    · have stack : (l'.withSource t).stack = l'.stack := rfl
      have capacity : (l'.withSource t).capacity = l'.capacity := rfl
      rw [stack, capacity]
      split
      · exact .same ⟨t, rfl, related⟩
      · exact .same ⟨_, rfl, alike.stop related⟩

theorem SameOver.classify (alike : UntilFailure e R) (h : SameOver R l m) (entry : Entry K)
    (fails : Option (Option (Except LexError (Token K))) → Prop) :
    SameUnless fails (SameOver R) (l.classify entry) (m.classify entry) := by
  obtain ⟨t, rfl, related⟩ := h
  rcases made : entry.result? with _ | error | token
  · rw [classify_of_none made, classify_of_none made]
    exact .same ⟨t, rfl, related⟩
  · rw [classify_of_error made, classify_of_error made]
    exact .same ⟨_, rfl, alike.stop related⟩
  · rw [classify_of_token made, classify_of_token made]
    exact .same ⟨t, rfl, related⟩

/-- The result reports the failure. -/
def TokenFailsBy (e : ReadError) (r : Option (Except LexError (Token K))) : Prop :=
  ∃ pos, r = some (.error (.scan ⟨e, pos⟩))

theorem SameOver.turn (alike : UntilFailure e R) (h : SameOver R l m) :
    SameUnless (fun r => ∃ a, r = some a ∧ TokenFailsBy e a) (SameOver R) l.turn m.turn := by
  have shifted := h.shift
  rw [Lexer.turn, Lexer.turn, shifted.stack_eq]
  cases l.shift.stack with
  | cons entry rest => exact shifted.classify alike entry _
  | nil =>
    rcases extended : l.shift.extend with ⟨answer, l'⟩
    obtain ⟨pos, rfl⟩ | ⟨m', extended', still⟩ := (shifted.extend alike).of_eq extended
    · exact .fails ⟨_, rfl, pos, rfl⟩
    · rw [extended']
      rcases answer with e' | _ | _ <;> dsimp only
      · exact .same still
      · exact .same still
      · rw [still.stack_eq]
        cases l'.stack with
        | nil => exact .same still
        | cons entry rest => exact still.classify alike entry _

variable [FiniteSource σ]

/-- A call of `lex` comes to the failure or to the same. -/
theorem SameOver.lex (alike : UntilFailure e R) (h : SameOver R l m) :
    SameUnless (TokenFailsBy e) (SameOver R) l.lex m.lex := by
  induction l using Lexer.lex.induct generalizing m with
  | case1 l result l' turned =>
    rw [lex_of_result turned]
    obtain ⟨a, same, failed⟩ | ⟨m', turned', still⟩ := (h.turn alike).of_eq turned
    · cases same
      exact .fails failed
    · rw [lex_of_result turned']
      exact .same still
  | case2 l l' turned _ ih =>
    obtain ⟨a, same, -⟩ | ⟨m', turned', still⟩ := (h.turn alike).of_eq turned
    · cases same
    · rw [lex_of_skip turned, lex_of_skip turned']
      exact ih still

end Lexer

/-! ## Lines -/

namespace Command

/-- The second run goes on where the first one comes to the failure, or is the same. -/
inductive Report.GoesOn (e : ReadError) (r : Report) : Report → Prop where
  | same : GoesOn e r r
  | fails {r' : Report} {pos : Position} : r.failure = some (.lexing (.scan ⟨e, pos⟩)) →
    r.lines <+: r'.lines → GoesOn e r r'

theorem Report.GoesOn.lines_prefix {r r' : Report} (h : r.GoesOn e r') : r.lines <+: r'.lines := by
  cases h with
  | same => exact List.prefix_rfl
  | fails _ first => exact first

theorem Report.GoesOn.eq_of_not_awaits {r r' : Report} (h : r.GoesOn awaited r')
    (settled : r.awaits = false) : r' = r := by
  cases h with
  | same => rfl
  | fails failed _ => simp [awaits, failed] at settled

theorem Report.GoesOn.write {r r' : Report} (h : r.GoesOn e r') (line : String) :
    (r.write line).GoesOn e (r'.write line) := by
  cases h with
  | same => exact .same
  | fails failed first => exact .fails failed ((List.prefix_cons_inj line).2 first)

section Lines

variable {σ : Type} [FrameSource σ] [FiniteSource σ] {R : σ → σ → Prop}

theorem tokenLines_goesOn (alike : UntilFailure e R) (format : Format) (limit : Option Nat)
    (count : Nat) {l m : Lexer σ Shell.Kind} (h : l.SameOver R m) :
    (tokenLines format limit count l).GoesOn e (tokenLines format limit count m) := by
  induction bound : l.supply using Nat.strongRecOn generalizing l m count with
  | _ n ih =>
    rcases lexed : l.lex with ⟨result, l'⟩
    obtain ⟨pos, rfl⟩ | ⟨m', lexed', still⟩ := (h.lex alike).of_eq lexed
    · rw [tokenLines_of_error lexed]
      exact .fails rfl List.nil_prefix
    · rcases result with _ | e' | token
      · rw [tokenLines_of_end lexed, tokenLines_of_end lexed']
        exact .same
      · rw [tokenLines_of_error lexed, tokenLines_of_error lexed']
        exact .same
      · rw [tokenLines_of_token lexed, tokenLines_of_token lexed']
        have less : l'.supply < n := bound ▸ Lexer.supply_lex_lt lexed
        by_cases full : limit = some (count + 1)
        · have fewer := Nat.lt_of_le_of_lt l'.supply_stop_le less
          rw [if_pos full, if_pos full]
          exact (ih _ fewer (count + 1) (still.stop alike) rfl).write _
        · rw [if_neg full, if_neg full]
          exact (ih _ less (count + 1) still rfl).write _

theorem frameLines_goesOn (alike : UntilFailure e R) (format : Format) (limit : Option Nat)
    (count : Nat) {s t : σ} (h : R s t) :
    (frameLines format limit count s).GoesOn e (frameLines format limit count t) := by
  induction bound : FiniteSource.supply s using Nat.strongRecOn generalizing s t count with
  | _ n ih =>
    rcases pulled : FrameSource.pull s with ⟨answer, s'⟩
    obtain ⟨pos, rfl⟩ | ⟨t', pulled', still⟩ := (alike.pull h).of_eq pulled
    · rw [frameLines_of_error pulled]
      exact .fails rfl List.nil_prefix
    · rcases answer with e' | _ | f
      · rw [frameLines_of_error pulled, frameLines_of_error pulled']
        exact .same
      · rw [frameLines_of_none pulled, frameLines_of_none pulled']
        exact .same
      · rw [frameLines_of_frame pulled, frameLines_of_frame pulled']
        have less : FiniteSource.supply s' < n := bound ▸ FiniteSource.supply_pull_lt pulled
        refine Report.GoesOn.write ?_ _
        by_cases last : f.isSentinel = true
        · rw [if_pos last, if_pos last]
          exact .same
        · rw [if_neg last, if_neg last]
          by_cases full : limit = some (count + 1)
          · have fewer := Nat.lt_of_le_of_lt (FiniteSource.supply_stop_le s') less
            rw [if_pos full, if_pos full]
            exact ih _ fewer (count + 1) (alike.stop still) rfl
          · rw [if_neg full, if_neg full]
            exact ih _ less (count + 1) still rfl

theorem sourceLines_goesOn (alike : UntilFailure e R) (options : Options) (format : Format)
    (g : Grammar Shell.Kind) {s t : σ} (h : R s t) :
    (sourceLines options format g s).GoesOn e (sourceLines options format g t) := by
  rw [sourceLines, sourceLines]
  split
  · exact frameLines_goesOn alike format options.limit 0 h
  · exact tokenLines_goesOn alike format options.limit 0 ⟨t, rfl, h⟩

end Lines

/-- A run over an input that fails beside the run over an input that goes on there. -/
theorem run_goesOn (options : Options) (styled : Bool) (h : Input.GoesOn e more i j) :
    (run options styled i).GoesOn e (run options styled j) := by
  unfold run
  generalize Shell.grammar = made
  cases made with
  | error => exact .same
  | ok g =>
    have scanners : Scanner.GoesOn e more (.start g.automata i) (.start g.automata j) := ⟨rfl, h⟩
    dsimp only
    split
    · exact sourceLines_goesOn (Channel.untilFailure e more) _ _ _ (.ready rfl rfl scanners)
    · exact sourceLines_goesOn (Inline.untilFailure e more) _ _ _ ⟨scanners, rfl⟩

end Command

/-! ## Readers -/

namespace Reader

variable {r s : Reader}

/-- The second reader has more chunks where the first one fails. -/
structure GoesOn (e : ReadError) (r s : Reader) : Prop where
  chunks : ∃ front more, r.chunks = front ++ [.failure e] ∧ s.chunks = front ++ more
  current : s.current = r.current
  pending : s.pending = r.pending

theorem GoesOn.fill (h : r.GoesOn e s) : SameUnless (· = .error e) (GoesOn e) r.fill s.fill := by
  obtain ⟨chunks, current, pending⟩ := r
  obtain ⟨chunks', current', pending'⟩ := s
  obtain ⟨⟨front, more, rfl, rfl⟩, rfl, rfl⟩ := h
  cases current' with
  | cons b bs => exact .same ⟨⟨front, more, rfl, rfl⟩, rfl, rfl⟩
  | nil =>
    cases front with
    | nil => exact .fails rfl
    | cons c front => cases c <;> exact .same ⟨⟨front, more, rfl, rfl⟩, rfl, rfl⟩

theorem GoesOn.access (h : r.GoesOn e s) :
    SameUnless (· = some (.error e)) (GoesOn e) r.access s.access := by
  rcases filled : r.fill with ⟨bytes, r'⟩
  rw [Reader.access, Reader.access]
  obtain rfl | ⟨s', filled', ⟨chunks, current, pending⟩⟩ := h.fill.of_eq filled
  · rw [filled]
    exact .fails rfl
  · rw [filled, filled']
    rcases bytes with e' | _ | ⟨b, bs⟩ <;> dsimp only
    · exact .same ⟨chunks, current, pending⟩
    · rw [pending]
      exact .same ⟨chunks, current, pending⟩
    · rw [pending]
      split
      · rw [decodeFresh, decodeFresh]
        split
        · exact .same ⟨chunks, rfl, pending⟩
        · split
          · exact .same ⟨chunks, rfl, rfl⟩
          · exact .same ⟨chunks, current, pending⟩
      · rw [decodePending, decodePending, pending]
        split
        · exact .same ⟨chunks, rfl, rfl⟩
        · dsimp only
          split
          · exact .same ⟨chunks, rfl, rfl⟩
          · exact .same ⟨chunks, rfl, rfl⟩

theorem GoesOn.read (h : r.GoesOn e s) : SameUnless (· = .error e) (GoesOn e) r.read s.read := by
  induction r using Reader.read.induct generalizing s with
  | case1 r reply r' accessed =>
    rw [read_of_reply accessed]
    obtain failed | ⟨s', accessed', still⟩ := h.access.of_eq accessed
    · cases failed
      exact .fails rfl
    · rw [read_of_reply accessed']
      exact .same still
  | case2 r r' accessed _ ih =>
    obtain failed | ⟨s', accessed', still⟩ := h.access.of_eq accessed
    · cases failed
    · rw [read_of_unfinished accessed, read_of_unfinished accessed']
      exact ih still

theorem GoesOn.drain (h : r.GoesOn e s) (taken : Array Char) :
    s.drain taken = r.drain taken ∨
      (r.drain taken).2 = some e ∧ (r.drain taken).1.toList <+: (s.drain taken).1.toList := by
  induction r, taken using Reader.drain.induct generalizing s with
  | case1 r taken c r' read _ ih =>
    obtain failed | ⟨s', read', still⟩ := h.read.of_eq read
    · cases failed
    · rw [drain_of_char read, drain_of_char read']
      exact ih still
  | case2 r taken r' read =>
    obtain failed | ⟨s', read', -⟩ := h.read.of_eq read
    · cases failed
    · have last : r.read = (lastReply none, r') := read
      have last' : s.read = (lastReply none, s') := read'
      exact .inl (by rw [drain_of_last last, drain_of_last last'])
  | case3 r taken e' r' read =>
    have last : r.read = (lastReply (some e'), r') := read
    rw [drain_of_last last]
    obtain failed | ⟨s', read', -⟩ := h.read.of_eq read
    · cases failed
      obtain ⟨cs, all, -⟩ := s.replies_drain taken
      exact .inr ⟨rfl, cs, all.symm⟩
    · have last' : s.read = (lastReply (some e'), s') := read'
      exact .inl (drain_of_last last')

theorem GoesOn.toInput (h : r.GoesOn e s) :
    s.toInput = r.toInput ∨ ∃ more, Input.GoesOn e more r.toInput s.toInput := by
  obtain same | ⟨failed, t, first⟩ := h.drain #[]
  · left
    rw [Reader.toInput, Reader.toInput, same]
  · right
    refine ⟨{ rest := t, failure := (s.drain #[]).2 }, failed, ?_⟩
    rw [Reader.toInput, Reader.toInput, ← first]
    rfl

end Reader

/-! ## The whole run -/

namespace Command

/-- The text that has arrived, and what it is later. -/
theorem Arrival.goesOn_followedBy (a later : Arrival) :
    (a.followedBy later).text = a.text ∨
      ∃ more, Input.GoesOn awaited more a.text (a.followedBy later).text := by
  rw [followedBy]
  split
  · exact .inl rfl
  · next running =>
    have behind : (a.chunks ++ later.chunks).toList = a.chunks.toList ++ later.chunks.toList :=
      Array.toList_append
    rw [text, text, if_neg running, behind, List.append_assoc]
    exact Reader.GoesOn.toInput ⟨⟨_, _, rfl, rfl⟩, rfl, rfl⟩

/-- The lines of a run over what has arrived of a text are the first ones of the run over what has
arrived later, and a run that does not come to the rest of the text is that run. -/
theorem run_followedBy (options : Options) (styled : Bool) (a later : Arrival) :
    let soFar := run options styled a.text
    let further := run options styled (a.followedBy later).text
    soFar.lines <+: further.lines ∧ (soFar.awaits = false → further = soFar) := by
  intro soFar further
  obtain same | ⟨more, goesOn⟩ := a.goesOn_followedBy later
  · have unchanged : further = soFar := congrArg (run options styled) same
    rw [unchanged]
    exact ⟨List.prefix_rfl, fun _ => rfl⟩
  · have beside : soFar.GoesOn awaited further := run_goesOn options styled goesOn
    exact ⟨beside.lines_prefix, beside.eq_of_not_awaits⟩

/-- A word and the blank behind it settle the first token, whatever follows them. -/
example :
    let a : Arrival := { chunks := #[.bytes [0x61, 0x20]] }
    (run { limit := some 1 } false a.text).awaits = false ∧
      (run {} false a.text).awaits = true := by
  decide +kernel

end Command

end Munch
