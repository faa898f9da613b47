import Munch.Proofs.Command
import Munch.Proofs.Drained
import Munch.Proofs.ShellTables

/-!
# The exit status of a run

A command line that is accepted leaves room for a frame on the stack of the lexer, so a run without
a limit comes to the end of its text or to the first bytes that are not UTF-8. It writes one line
for each token or frame that was handed out until then, with the scanner on a thread of its own or
not, and its status tells which of the two it came to.

## Main definitions

* `upTo`: what is handed out up to an error.
* `Command.report`: the lines of what is handed out.
* `Command.Shows`: the lines of all tokens or frames of a text, and the failure behind them.
* `Command.exit_status`: what a run without a limit writes, and its exit status.
-/

namespace Munch

/-- What is handed out up to an error, and then the error. -/
def upTo {ε α : Type} (items : List α) (failure : Option ε) : List (Except ε α) :=
  items.map .ok ++ (failure.map .error).toList

theorem upTo_cons {ε α : Type} (item : α) (items : List α) (failure : Option ε) :
    upTo (item :: items) failure = .ok item :: upTo items failure := rfl

namespace Scanner

variable {s : Scanner}

/-- A scanner hands out frames, and behind them the failure of its input if it has one. -/
theorem Sound.results (sound : s.Sound) (going : s.passes ≠ []) :
    ∃ (frames : List Frame) (failure : Option ScanError),
      failure.map (·.error) = s.input.failure ∧ s.results = upTo frames failure := by
  induction size : s.supply using Nat.strongRecOn generalizing s with
  | _ n ih =>
    have handed := sound.handsOut going
    obtain ⟨sound', kept⟩ := sound_next sound false
    rcases called : s.next false with ⟨item, t⟩
    rw [called] at handed sound' kept
    cases handed with
    | @frame f _ more going' =>
      obtain ⟨frames, failure, failing, rest⟩ :=
        ih t.supply (size ▸ supply_next_lt called) sound' going' rfl
      refine ⟨f :: frames, failure, failing.trans kept, ?_⟩
      rw [results_of_frame called, rest, upTo_cons]
    | @sentinel f _ last readable =>
      refine ⟨[f], none, readable.symm, ?_⟩
      rw [results_of_frame called, results_of_ended (passes_of_sentinel called last)]
      rfl
    | @failure e _ failing =>
      exact ⟨[], some e, failing.symm, results_of_error called⟩

end Scanner

/-- Tokens that fail only by the failure of the input are handed out up to it. -/
theorem Lexer.FailsOnlyBy.exists_upTo {K : Type} {failure : Option ReadError}
    {results : List (Except LexError (Token K))} (h : FailsOnlyBy failure results) :
    ∃ (tokens : List (Token K)) (error : Option ScanError),
      error.map (·.error) = failure ∧ results = upTo tokens (error.map .scan) := by
  obtain ⟨tokens, rest⟩ := h
  cases failure with
  | none => exact ⟨tokens, none, rfl, by rw [rest]; simp [upTo]⟩
  | some e =>
    obtain ⟨pos, rest⟩ := rest
    exact ⟨tokens, some ⟨e, pos⟩, rfl, rest⟩

namespace Command

/-! ## Accepted command lines -/

theorem Reading.pos_of_number {r : Reading} {s : Setting} {n : Nat}
    (h : r.number s = .ok (some n)) : 0 < n := by
  rw [Reading.number] at h
  split at h
  · cases h
  · split at h
    · cases h
    · cases h
    · next nonzero _ =>
      cases h
      exact Nat.pos_of_ne_zero nonzero

/-- The numbers among the options are those that were read. -/
theorem Reading.numbers_of_options {r : Reading} {options : Options} (h : r.options = .ok options) :
    r.number .limit = .ok options.limit ∧
      ∃ n, r.number .lookahead = .ok n ∧ options.lookahead = n.getD Lexer.defaultCapacity := by
  rw [Reading.options] at h
  -- Whether or not an option still awaits its value, the numbers are read last.
  repeat' split at h
  case h_1.isTrue => cases h
  all_goals
    obtain ⟨-, -, h⟩ := exists_of_bind_ok h
    obtain ⟨limit, bound, h⟩ := exists_of_bind_ok h
    obtain ⟨n, number, h⟩ := exists_of_bind_ok h
    cases h
    exact ⟨bound, n, number, rfl⟩

/-- The options of a command line leave room for a frame. -/
theorem Reading.lookahead_pos {r : Reading} {options : Options} (h : r.options = .ok options) :
    0 < options.lookahead := by
  obtain ⟨-, n, number, lookahead⟩ := Reading.numbers_of_options h
  rw [lookahead]
  cases n with
  | none => decide
  | some n => exact Reading.pos_of_number number

/-- The options of a command line are those of all its words. -/
theorem Request.exists_reading {r : Reading} {words : List String} {options : Options}
    (h : parseFrom r words = .ok (.run options)) : ∃ r' : Reading, r'.options = .ok options := by
  induction words generalizing r with
  | nil =>
    rw [parseFrom] at h
    cases read : r.options with
    | error e =>
      rw [read] at h
      cases h
    | ok made =>
      rw [read] at h
      cases h
      exact ⟨r, read⟩
  | cons text rest ih =>
    rw [parseFrom] at h
    split at h
    · obtain ⟨_, -, h⟩ := exists_of_bind_ok h
      exact ih h
    · split at h
      · cases h
      · cases h
      · cases h
      · exact ih h
      · exact ih h
      · exact ih h
      · exact ih h
      · split at h
        · exact ih h
        · obtain ⟨_, -, h⟩ := exists_of_bind_ok h
          exact ih h

theorem Request.lookahead_pos {words : List String} {options : Options}
    (h : Request.parse words = .ok (.run options)) : 0 < options.lookahead := by
  obtain ⟨r, read⟩ := Request.exists_reading h
  exact Reading.lookahead_pos read

/-- A limit leaves room for a line. -/
theorem Request.limit_pos {words : List String} {options : Options}
    (h : Request.parse words = .ok (.run options)) {n : Nat} (limited : options.limit = some n) :
    0 < n := by
  obtain ⟨r, read⟩ := Request.exists_reading h
  have bound := (Reading.numbers_of_options read).1
  rw [limited] at bound
  exact Reading.pos_of_number bound

/-! ## Lines -/

/-- The lines of what is handed out, up to the first error. -/
def report {α : Type} (line : α → String) : List (Except LexError α) → Report
  | [] => .done
  | .error e :: _ => .failed (.lexing e)
  | .ok item :: rest => .write (line item) (report line rest)

theorem report_upTo {α : Type} (line : α → String) (items : List α) (failure : Option LexError) :
    report line (upTo items failure) = ⟨items.map line, failure.map .lexing⟩ := by
  induction items with
  | nil => cases failure <;> rfl
  | cons item items ih =>
    rw [upTo_cons, report, ih]
    rfl

/-- Without a limit all tokens are written that a lexer gives. -/
theorem tokenLines_eq_report {σ : Type} [FrameSource σ] [FiniteSource σ] (format : Format)
    (count : Nat) (l : Lexer σ Shell.Kind) :
    tokenLines format none count l = report (tokenLine format) l.drain.1 := by
  induction l using Lexer.drain.induct generalizing count with
  | case1 l m lexed =>
    rw [tokenLines_of_end lexed, Lexer.drain_of_end lexed]
    rfl
  | case2 l e m lexed =>
    rw [tokenLines_of_error lexed, Lexer.drain_of_error lexed]
    rfl
  | case3 l t m lexed _ _ _ _ ih =>
    have unlimited : none ≠ some (count + 1) := (Option.some_ne_none _).symm
    rw [tokenLines_of_token lexed, Lexer.drain_of_token lexed, if_neg unlimited, ih]
    rfl

/-- Without a limit the frames that a scanner hands out are all written. -/
theorem frameLines_eq_report (format : Format) (count : Nat) (s : Scanner) :
    frameLines format none count (Inline.mk s false) =
      report (frameLine format) (s.results.map (Except.mapError .scan)) := by
  induction size : s.supply using Nat.strongRecOn generalizing s count with
  | _ n ih =>
    have pulled : FrameSource.pull (Inline.mk s false) = Inline.pull (Inline.mk s false) := rfl
    rcases called : s.next false with ⟨_ | e | f, t⟩ <;>
      simp only [Inline.pull, called] at pulled
    · rw [frameLines_of_none pulled, Scanner.results_of_none called]
      rfl
    · rw [frameLines_of_error pulled, Scanner.results_of_error called]
      rfl
    · rw [frameLines_of_frame pulled, Scanner.results_of_frame called]
      cases last : f.isSentinel with
      | true =>
        rw [Scanner.results_of_ended (Scanner.passes_of_sentinel called last)]
        rfl
      | false =>
        have less : t.supply < n := size ▸ Scanner.supply_next_lt called
        have unlimited : none ≠ some (count + 1) := (Option.some_ne_none _).symm
        rw [if_neg Bool.false_ne_true, if_neg unlimited, ih _ less (count + 1) t rfl]
        rfl

/-! ## The whole run -/

/-- The lines of all tokens or frames that are handed out over a text, and the failure behind
them. -/
inductive Shows (options : Options) (format : Format) (text : Input) :
    List String → Option ScanError → Prop where
  | tokens {tokens : List (Token Shell.Kind)} {failure : Option ScanError} :
    options.frames = false →
    Shell.tokens text options.lookahead = .ok (upTo tokens (failure.map .scan)) →
    Shows options format text (tokens.map (tokenLine format)) failure
  | frames {g : Grammar Shell.Kind} {frames : List Frame} {failure : Option ScanError} :
    options.frames = true → Shell.grammar = .ok g →
    (Scanner.start g.automata text).results = upTo frames failure →
    Shows options format text (frames.map (frameLine format)) failure

variable {options : Options} {g : Grammar Shell.Kind}

/-- Without a limit, a run over a scanner writes the lines of all that is handed out, and fails just
if the input does. -/
theorem runOver_shows (built : Shell.grammar = .ok g) (unlimited : options.limit = none)
    (room : 0 < options.lookahead) (styled : Bool) (text : Input) :
    ∃ lines failure,
      Shows options (if options.json then .json else .plain styled) text lines failure ∧
      failure.map (·.error) = text.failure ∧
      runOver g (Inline.mk · false) options styled text =
        ⟨lines, failure.map fun e => .lexing (.scan e)⟩ := by
  generalize format : (if options.json then Format.json else .plain styled) = format
  cases shown : options.frames with
  | false =>
    obtain ⟨only, -⟩ := Lexer.drain_of_covered (Shell.covered_grammar built) text room
    obtain ⟨tokens, failure, failing, drained⟩ := only.exists_upTo
    have all := Shell.tokens_eq (Shell.lexer_eq built text options.lookahead)
    rw [drained] at all
    refine ⟨_, failure, .tokens shown all, failing, ?_⟩
    rw [runOver, sourceLines, if_neg (by simp [shown]), unlimited, tokenLines_eq_report, drained,
      report_upTo, format, Option.map_map]
    rfl
  | true =>
    obtain ⟨frames, failure, failing, all⟩ :=
      (Scanner.sound_start g.automata text).results (by simp [Scanner.start])
    refine ⟨_, failure, .frames shown built all, failing, ?_⟩
    have scanned : (upTo frames failure).map (Except.mapError .scan) =
        upTo frames (failure.map LexError.scan) := by
      cases failure <;> simp [upTo, Except.mapError]
    rw [runOver, sourceLines, if_pos shown, unlimited, frameLines_eq_report, all, scanned,
      report_upTo, format, Option.map_map]
    rfl

/-- Without a limit a run over a channel comes to the same. -/
theorem runOver_of_unlimited {σ : Type} [FrameSource σ] [FiniteSource σ] {channel : σ → Channel}
    (threads : Channel.Threads channel) (hangs : Channel.Hangs channel) {source : Scanner → σ}
    (spawned : ∀ s, channel (source s) = .spawn s) (unlimited : options.limit = none)
    (styled : Bool) (text : Input) :
    runOver g source options styled text = runOver g (Inline.mk · false) options styled text := by
  have matched := runOver_matches threads hangs spawned g options styled text
  cases shown : options.frames with
  | false => exact matched.tokens shown
  | true =>
    refine (matched.frames shown).unlimited ?_
    rintro ⟨n, -, full, -⟩
    rw [unlimited] at full
    cases full

theorem run_of_unlimited (built : Shell.grammar = .ok g) (unlimited : options.limit = none)
    (styled : Bool) (text : Input) :
    run options styled text = runOver g (Inline.mk · false) options styled text := by
  rw [run_of_grammar built]
  split
  · exact runOver_of_unlimited Channel.threads_id Channel.hangs_id (fun _ => rfl) unlimited styled
      text
  · rfl

/-- What the command does with a text that it was asked to read. -/
theorem outcome_of_run {words : List String} (parsed : Request.parse words = .ok (.run options))
    {opened : Option String → Except ReadError Input} {text : Input}
    (reads : opened options.path = .ok text) (terminal : Bool) :
    outcome terminal opened words =
      .ofReport (terminal && !options.json) (run options (terminal && !options.json) text) := by
  simp only [outcome, parsed, Outcome.ofRun, reads]

/-- A run without a limit over bytes in whatever chunks ends with status 0 if they are UTF-8. If
they are not, it ends with status 2, and the error is that of the scanner for invalid bytes. Either
way the output is the lines of all tokens or frames that are handed out until then. On a thread of
its own the scanner makes no difference to this, whatever steps it makes before each pull. -/
theorem exit_status {words : List String} {options : Options}
    (parsed : Request.parse words = .ok (.run options)) (unlimited : options.limit = none)
    {chunks : List (List UInt8)} (nonempty : ∀ chunk ∈ chunks, chunk ≠ [])
    {opened : Option String → Except ReadError Input}
    (reads : opened options.path = .ok (Reader.toInput { chunks := chunks.map .bytes }))
    (terminal : Bool) :
    let text := Reader.toInput { chunks := chunks.map .bytes }
    let styled := terminal && !options.json
    let valid := ∃ cs, Utf8.encode cs = chunks.flatten
    let result := outcome terminal opened words
    (∃ lines failure,
      Shows options (if options.json then .json else .plain styled) text lines failure ∧
      result.output = String.join (lines.map (· ++ "\n")) ∧
      (valid → failure = none ∧ result.status = 0 ∧ result.errors = "") ∧
      (¬valid → ∃ pos, failure = some ⟨Reader.invalid, pos⟩ ∧ result.status = 2 ∧
        result.errors = errorLine styled (LexError.scan ⟨Reader.invalid, pos⟩).message ++ "\n")) ∧
    ∀ {σ : Type} [FrameSource σ] [FiniteSource σ] {channel : σ → Channel} {source : Scanner → σ},
      Channel.Threads channel → Channel.Hangs channel → (∀ s, channel (source s) = .spawn s) →
      ∃ g, Shell.grammar = .ok g ∧
        Outcome.ofReport styled (runOver g source options styled text) = result := by
  intro text styled valid result
  obtain ⟨g, built⟩ := Shell.exists_grammar
  have ran : result = .ofReport styled (runOver g (Inline.mk · false) options styled text) := by
    rw [← run_of_unlimited built unlimited]
    exact outcome_of_run parsed reads terminal
  refine ⟨?_, fun threads hangs spawned => ⟨g, built, ?_⟩⟩
  · have room := Request.lookahead_pos parsed
    obtain ⟨lines, failure, shows, failing, writes⟩ :=
      runOver_shows built unlimited room styled text
    obtain ⟨decodable, undecodable⟩ := Reader.failure_toInput_chunks nonempty
    rw [← failing] at decodable undecodable
    rw [writes] at ran
    refine ⟨lines, failure, shows, by rw [ran]; rfl, fun decodes => ?_, fun invalid => ?_⟩
    · obtain rfl := Option.map_eq_none_iff.1 (decodable.2 decodes)
      rw [ran]
      exact ⟨rfl, rfl, rfl⟩
    · cases failure with
      | none => exact absurd (decodable.1 rfl) invalid
      | some e =>
        obtain ⟨error, pos⟩ := e
        obtain rfl := undecodable error rfl
        rw [ran]
        exact ⟨pos, rfl, rfl, rfl⟩
  · rw [ran, runOver_of_unlimited threads hangs spawned unlimited]

/-- The bytes of a redirection and of a word in two chunks, broken off by a byte that begins no
character. The producer makes three steps before the first pull. -/
theorem exit_status_of_cut_stream :
    let chunks : List (List UInt8) := [[0x32], [0x3E, 0x78, 0xFF]]
    let text := Reader.toInput { chunks := chunks.map .bytes }
    let source : Scanner → Scheduled := fun s => { channel := .spawn s, schedule := [3] }
    let result := outcome false (fun _ => .ok text) ["--json", "--threaded"]
    (∃ tokens pos, Shell.tokens text 16 = .ok (upTo tokens (some (.scan ⟨Reader.invalid, pos⟩))) ∧
      result.output = String.join (tokens.map (tokenLine .json · ++ "\n")) ∧ result.status = 2) ∧
    ∃ g, Shell.grammar = .ok g ∧
      Outcome.ofReport false (runOver g source { json := true, threaded := true } false text) =
        result := by
  intro chunks text source result
  have failure : text.failure = some Reader.invalid := by decide +kernel
  have nonempty : ∀ chunk ∈ chunks, chunk ≠ [] := by decide
  have invalid : ¬∃ cs, Utf8.encode cs = chunks.flatten := by
    intro valid
    have none := (Reader.failure_toInput_chunks nonempty).1.2 valid
    rw [failure] at none
    cases none
  have parsed : Request.parse ["--json", "--threaded"] =
      .ok (.run { json := true, threaded := true }) := by decide +kernel
  let opened : Option String → Except ReadError Input := fun _ => .ok text
  have reads : opened none = .ok text := rfl
  obtain ⟨⟨lines, _, shows, output, -, failed⟩, threaded⟩ :=
    exit_status parsed rfl nonempty reads false
  obtain ⟨pos, rfl, status, -⟩ := failed invalid
  refine ⟨?_, threaded Channel.threads_scheduled Channel.hangs_scheduled fun _ => rfl⟩
  cases shows with
  | @tokens tokens _ _ all =>
    refine ⟨tokens, pos, all, ?_, status⟩
    rw [output, List.map_map]
    rfl
  | frames shown => cases shown

end Command
end Munch
