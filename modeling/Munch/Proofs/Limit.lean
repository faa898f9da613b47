import Munch.Proofs.ExitStatus

/-!
# A limit truncates the output

At the limit a run requests a stop and goes on as before. A lexer that was stopped gives no token any
more, so a run with a limit writes the first lines of the run without it, and it fails only if it
does not come to the limit. A scanner still gives its sentinel or a failed read behind the request,
but only if that is what comes next. So what is written are the first lines here too, and at most
the line of the sentinel behind them.

## Main definitions

* `Command.Report.upTo`: a report up to a number of lines.
* `Command.CutAt`: the ways a run over frames ends at its limit.
* `Command.Truncates`: what a limit makes of a run.
* `Command.limit_truncates`: the command with a limit beside the command without it.
-/

namespace Munch.Command

/-! ## Reports up to a number of lines -/

/-- The first lines of a report. It fails only if it does not have so many. -/
def Report.upTo (n : Nat) (r : Report) : Report where
  lines := r.lines.take n
  failure := if n ≤ r.lines.length then none else r.failure

namespace Report

theorem upTo_zero (r : Report) : r.upTo 0 = .done := by simp [upTo, done]

theorem upTo_done (n : Nat) : done.upTo n = done := by simp [upTo, done]

theorem upTo_failed (f : Failure) (n : Nat) : (failed f).upTo (n + 1) = failed f := by
  simp [upTo, failed]

theorem upTo_write (line : String) (r : Report) (n : Nat) :
    (r.write line).upTo (n + 1) = (r.upTo n).write line := by
  simp [upTo, write]

/-- A report with fewer lines is left as it is. -/
theorem upTo_of_length_lt {n : Nat} {r : Report} (h : (r.upTo n).lines.length < n) :
    r.upTo n = r := by
  simp only [upTo, List.length_take] at h
  rw [upTo, List.take_of_length_le (by omega), if_neg (by omega)]

end Report

/-! ## Tokens -/

section Tokens

variable {σ : Type} [FrameSource σ] [FiniteSource σ] {format : Format}

/-- A lexer that was stopped gives no token any more. -/
theorem tokenLines_stop (limit : Option Nat) (count : Nat) (l : Lexer σ Shell.Kind) :
    tokenLines format limit count l.stop = .done :=
  tokenLines_of_end (Lexer.lex_of_result l.spent_stop.over.turn)

/-- Up to a limit the first tokens are written that a lexer gives. -/
theorem tokenLines_limited (count n : Nat) (l : Lexer σ Shell.Kind) :
    tokenLines format (some (count + (n + 1))) count l =
      (report (tokenLine format) l.drain.1).upTo (n + 1) := by
  induction l using Lexer.drain.induct generalizing count n with
  | case1 l m lexed =>
    rw [tokenLines_of_end lexed, Lexer.drain_of_end lexed, report, Report.upTo_done]
  | case2 l e m lexed =>
    rw [tokenLines_of_error lexed, Lexer.drain_of_error lexed, report, Report.upTo_failed]
  | case3 l t m lexed _ _ _ _ ih =>
    rw [tokenLines_of_token lexed, Lexer.drain_of_token lexed, report, Report.upTo_write]
    cases n with
    | zero => rw [if_pos rfl, tokenLines_stop, Report.upTo_zero]
    | succ n =>
      have more : some (count + (n + 1 + 1)) ≠ some (count + 1) := by simp
      have rest := ih (count + 1) n
      rw [Nat.add_right_comm, Nat.add_assoc] at rest
      rw [if_neg more, rest]

end Tokens

/-! ## Frames -/

/-- Of two runs over the frames of a scanner, the first has a limit of `n` lines. It writes the first
lines, unless the sentinel or a failure comes right behind them, which comes through. -/
inductive CutAt (format : Format) (n : Nat) : Report → Report → Prop where
  | limit (r : Report) : CutAt format n (r.upTo n) r
  | sentinel {r : Report} (lines : List String) (pos : Position) : lines.length = n →
    r.lines = lines ++ [frameLine format (.ending pos 0)] → CutAt format n r r
  | failure {r : Report} : r.lines.length = n → CutAt format n r r

section Frames

variable {format : Format} {n : Nat} {r r' : Report}

theorem CutAt.write (h : CutAt format n r r') (line : String) :
    CutAt format (n + 1) (r.write line) (r'.write line) := by
  cases h with
  | limit =>
    rw [← Report.upTo_write]
    exact .limit _
  | sentinel lines pos length written =>
    exact .sentinel (line :: lines) pos (by simp [length]) (by simp [Report.write, written])
  | failure length => exact .failure (by simp [Report.write, length])

/-- The first lines are the same in either way. -/
theorem CutAt.take_eq (h : CutAt format n r r') : r.lines.take n = r'.lines.take n := by
  cases h with
  | limit => simp [Report.upTo, List.take_take]
  | sentinel => rfl
  | failure => rfl

theorem CutAt.lines_prefix (h : CutAt format n r r') : r.lines <+: r'.lines := by
  cases h with
  | limit => exact List.take_prefix _ _
  | sentinel => exact List.prefix_rfl
  | failure => exact List.prefix_rfl

/-- At most the line of the sentinel comes behind the limit. -/
theorem CutAt.length_le (h : CutAt format n r r') :
    r.lines.length ≤ n ∨ ∃ lines pos, lines.length = n ∧
      r.lines = lines ++ [frameLine format (.ending pos 0)] := by
  cases h with
  | limit => exact .inl (List.length_take_le n _)
  | sentinel lines pos length written => exact .inr ⟨lines, pos, length, written⟩
  | failure length => exact .inl (Nat.le_of_eq length)

/-- What comes through a request to stop right behind a line is what comes next. -/
theorem cutAt_of_raised (line : String) (s : Scanner) :
    CutAt format 1 (.write line (trail format s.results.head?))
      (.write line (report (frameLine format) (s.results.map (Except.mapError .scan)))) := by
  rcases called : s.next false with ⟨_ | e | f, t⟩
  · rw [Scanner.results_of_none called]
    exact .limit (.write line .done)
  · rw [Scanner.results_of_error called]
    exact .failure rfl
  · rw [Scanner.results_of_frame called]
    simp only [List.head?_cons, trail, List.map_cons, Except.mapError, report]
    cases last : f.isSentinel with
    | true =>
      have ending : ∃ pos, f = .ending pos 0 := by
        cases Scanner.closes_of_isLast called last with
        | sentinel pos => exact ⟨pos, rfl⟩
      obtain ⟨pos, rfl⟩ := ending
      rw [Scanner.results_of_ended (Scanner.passes_of_sentinel called last)]
      exact .sentinel [line] pos rfl rfl
    | false =>
      have first (r : Report) : (Report.write line r).upTo 1 = .write line .done := by
        rw [Report.upTo_write, Report.upTo_zero]
      rw [if_neg Bool.false_ne_true, ← first]
      exact .limit _

/-- Up to a limit the frames are written that a scanner gives, and what comes through behind it. -/
theorem frameLines_limited (count n : Nat) (s : Scanner) :
    CutAt format (n + 1) (frameLines format (some (count + (n + 1))) count (Inline.mk s false))
      (report (frameLine format) (s.results.map (Except.mapError .scan))) := by
  induction size : s.supply using Nat.strongRecOn generalizing s count n with
  | _ k ih =>
    have pulled : FrameSource.pull (Inline.mk s false) = Inline.pull (Inline.mk s false) := rfl
    rcases called : s.next false with ⟨_ | e | f, t⟩ <;>
      simp only [Inline.pull, called] at pulled
    · rw [frameLines_of_none pulled, Scanner.results_of_none called, ← Report.upTo_done (n + 1)]
      exact .limit _
    · rw [frameLines_of_error pulled, Scanner.results_of_error called, ← Report.upTo_failed _ n]
      exact .limit _
    · rw [frameLines_of_frame pulled, Scanner.results_of_frame called]
      simp only [List.map_cons, Except.mapError, report]
      cases last : f.isSentinel with
      | true =>
        rw [Scanner.results_of_ended (Scanner.passes_of_sentinel called last)]
        have nothing : CutAt format n .done .done := by
          have cut : CutAt format n (Report.upTo n .done) .done := .limit .done
          rwa [Report.upTo_done] at cut
        exact nothing.write _
      | false =>
        rw [if_neg Bool.false_ne_true]
        cases n with
        | zero =>
          rw [if_pos rfl, frameLines_of_raised rfl]
          exact cutAt_of_raised _ t
        | succ n =>
          have less : t.supply < k := size ▸ Scanner.supply_next_lt called
          have more : some (count + (n + 1 + 1)) ≠ some (count + 1) := by simp
          have rest := ih _ less (count + 1) n t rfl
          rw [Nat.add_right_comm, Nat.add_assoc] at rest
          rw [if_neg more]
          exact rest.write _

end Frames

/-! ## The whole run -/

/-- What a limit of `n` lines makes of a run, which without it would give the report `free`. -/
structure Truncates (options : Options) (styled : Bool) (n : Nat) (limited free : Report) :
    Prop where
  /-- The lines are the first ones. -/
  begins : limited.lines <+: free.lines
  /-- Of the tokens there are as many as the limit lets through. -/
  tokens : options.frames = false → limited.lines = free.lines.take n
  /-- The run does not fail if it comes to the limit of tokens. -/
  status : options.frames = false → (Outcome.ofReport styled limited).status =
    if limited.lines.length = n then 0 else (Outcome.ofReport styled free).status
  /-- Behind the limit of frames at most the sentinel is written. -/
  frames : options.frames = true → limited.lines.length ≤ n ∨ ∃ lines pos, lines.length = n ∧
    limited.lines = lines ++ [frameLine (if options.json then .json else .plain styled)
      (.ending pos 0)]

section Run

variable {options : Options} {styled : Bool} {n : Nat} {r free : Report}

theorem truncates_of_upTo (shown : options.frames = false) :
    Truncates options styled n (free.upTo n) free where
  begins := List.take_prefix _ _
  tokens _ := rfl
  status _ := by
    split
    · next full =>
      have enough : n ≤ free.lines.length := by
        rw [← full]
        exact List.length_take_le' n free.lines
      simp [Report.upTo, Outcome.ofReport, enough]
    · next few =>
      have fewer : (free.upTo n).lines.length < n :=
        Nat.lt_of_le_of_ne (List.length_take_le n free.lines) few
      rw [Report.upTo_of_length_lt fewer]
  frames h := by
    rw [shown] at h
    cases h

theorem truncates_of_cutAt (shown : options.frames = true)
    (cut : CutAt (if options.json then .json else .plain styled) n r free) :
    Truncates options styled n r free where
  begins := cut.lines_prefix
  tokens h := by
    rw [shown] at h
    cases h
  status h := by
    rw [shown] at h
    cases h
  frames _ := cut.length_le

variable {g : Grammar Shell.Kind}

/-- A run that ends at the limit where another goes on ends with the first lines of that one. -/
theorem EndsAtLimit.cutAt {format : Format} {items : List (Except ScanError Frame)}
    {r' : Report} (ends : EndsAtLimit format (some n) 0 items r r') (cut : CutAt format n r' free) :
    CutAt format n r free := by
  have length : n = r.lines.length := by simpa using ends.full
  have lines : r.lines = free.lines.take n := by
    rw [← cut.take_eq, ends.behind, length]
    exact List.take_left.symm
  have enough : n ≤ free.lines.length := by
    rw [length, lines]
    exact List.length_take_le' n free.lines
  have first : r = free.upTo n := by
    obtain ⟨written, failure⟩ := r
    obtain rfl : failure = none := ends.calm
    rw [Report.upTo, if_pos enough, ← lines]
  rw [first]
  exact .limit free

/-- A limit truncates a run over the scanner itself and over any source that is alike. -/
theorem runOver_truncates {σ : Type} [FrameSource σ] [FiniteSource σ] {channel : σ → Channel}
    (threads : Channel.Threads channel) (hangs : Channel.Hangs channel) {source : Scanner → σ}
    (spawned : ∀ s, channel (source s) = .spawn s) (limited : options.limit = some n)
    (room : 0 < n) (styled : Bool) (text : Input) :
    let free := runOver g (Inline.mk · false) { options with limit := none } styled text
    Truncates options styled n (runOver g (Inline.mk · false) options styled text) free ∧
      Truncates options styled n (runOver g source options styled text) free := by
  intro free
  obtain ⟨n, rfl⟩ := Nat.exists_eq_succ_of_ne_zero (Nat.ne_of_gt room)
  have bound : options.limit = some (0 + (n + 1)) := by rw [limited, Nat.zero_add]
  have matched := runOver_matches threads hangs spawned g options styled text
  cases shown : options.frames with
  | false =>
    have inline : runOver g (Inline.mk · false) options styled text = free.upTo (n + 1) := by
      simp only [free, runOver, sourceLines, shown, bound, if_neg Bool.false_ne_true,
        tokenLines_limited, tokenLines_eq_report]
    rw [matched.tokens shown, inline]
    exact ⟨truncates_of_upTo shown, truncates_of_upTo shown⟩
  | true =>
    have inline : CutAt (if options.json then .json else .plain styled) (n + 1)
        (runOver g (Inline.mk · false) options styled text) free := by
      simp only [free, runOver, sourceLines, shown, bound, if_pos, frameLines_eq_report]
      exact frameLines_limited 0 n _
    refine ⟨truncates_of_cutAt shown inline, ?_⟩
    have beside := matched.frames shown
    rw [limited] at beside
    by_cases reaches : ReachesLimit (some (n + 1)) 0
      (runOver g (Inline.mk · false) options styled text)
    · exact truncates_of_cutAt shown ((beside.limited reaches).cutAt inline)
    · rw [beside.unlimited reaches]
      exact truncates_of_cutAt shown inline

/-- With a limit the command writes the first lines of what it writes without it. If it writes
tokens, it comes to the limit and its status is 0, or it ends as it does without the limit. If it
writes frames, at most the line of the sentinel stands behind the limit. On a thread of its own the
scanner makes no difference to this, whatever steps it makes before each pull and before the request
to stop. -/
theorem limit_truncates {words : List String} {options : Options} {n : Nat}
    (parsed : Request.parse words = .ok (.run options)) (limited : options.limit = some n)
    {opened : Option String → Except ReadError Input} {text : Input}
    (reads : opened options.path = .ok text) (terminal : Bool) :
    let unlimited := { options with limit := none }
    let styled := terminal && !options.json
    let free := run unlimited styled text
    (∀ words', Request.parse words' = .ok (.run unlimited) →
      outcome terminal opened words' = .ofReport styled free) ∧
    (outcome terminal opened words = .ofReport styled (run options styled text) ∧
      Truncates options styled n (run options styled text) free) ∧
    ∃ g, Shell.grammar = .ok g ∧
      ∀ {σ : Type} [FrameSource σ] [FiniteSource σ] {channel : σ → Channel} {source : Scanner → σ},
        Channel.Threads channel → Channel.Hangs channel → (∀ s, channel (source s) = .spawn s) →
        runOver g source unlimited styled text = free ∧
          Truncates options styled n (runOver g source options styled text) free := by
  intro unlimited styled free
  obtain ⟨g, built⟩ := Shell.exists_grammar
  have room := Request.limit_pos parsed limited
  have whole : free = runOver g (Inline.mk · false) unlimited styled text :=
    run_of_unlimited built rfl styled text
  refine ⟨fun words' parsed' => outcome_of_run parsed' reads terminal,
    ⟨outcome_of_run parsed reads terminal, ?_⟩, g, built, fun threads hangs spawned => ⟨?_, ?_⟩⟩
  · obtain ⟨inline, threaded⟩ := runOver_truncates (g := g) Channel.threads_id Channel.hangs_id
      (fun _ => rfl) limited room styled text
    rw [whole, run_of_grammar built]
    split
    · exact threaded
    · exact inline
  · rw [whole, runOver_of_unlimited threads hangs spawned rfl]
  · rw [whole]
    exact (runOver_truncates threads hangs spawned limited room styled text).2

/-- The limit of one token comes before the bytes that are not UTF-8, which a run without a limit
fails by. The producer makes three steps before the first pull. -/
theorem limit_truncates_before_failure :
    let text := Reader.toInput { chunks := [.bytes [0x61, 0x20, 0xFF]] }
    let source : Scanner → Scheduled := fun s => { channel := .spawn s, schedule := [3] }
    let limited := outcome false (fun _ => .ok text) ["--limit", "1"]
    let free := outcome false (fun _ => .ok text) []
    (limited.status = 0 ∧ free.status = 2) ∧
      limited = .ofReport false (run { limit := some 1 } false text) ∧
      free = .ofReport false (run {} false text) ∧
      Truncates { limit := some 1 } false 1 (run { limit := some 1 } false text)
        (run {} false text) ∧
      ∃ g, Shell.grammar = .ok g ∧ Truncates { limit := some 1 } false 1
        (runOver g source { limit := some 1 } false text) (run {} false text) := by
  intro text source limited free
  have parsed : Request.parse ["--limit", "1"] = .ok (.run { limit := some 1 }) := by
    decide +kernel
  have parsed' : Request.parse [] = .ok (.run {}) := by decide +kernel
  have statuses : limited.status = 0 ∧ free.status = 2 := by decide +kernel
  let opened : Option String → Except ReadError Input := fun _ => .ok text
  have reads : opened none = .ok text := rfl
  obtain ⟨whole, ⟨cut, inline⟩, g, built, threaded⟩ := limit_truncates parsed rfl reads false
  exact ⟨statuses, cut, whole [] parsed', inline, g, built,
    (threaded Channel.threads_scheduled Channel.hangs_scheduled fun _ => rfl).2⟩

end Run

end Munch.Command
