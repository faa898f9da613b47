import Munch.Command.Run
import Munch.Proofs.Cancelling
import Munch.Proofs.Threading

/-!
# The command with its scanner on a channel

Whether the scanner runs on a thread of its own makes no difference to the tokens that the command
writes: a lexer does not pull again once it has requested a stop. Frames are pulled without a lexer,
and there the two ways part at the limit. The channel hangs up, so that nothing follows the last
line that was asked for. The scanner itself looks at the request when it has something to hand out,
and lets the sentinel and a read failure through: the sentinel is one line more, and the failure
changes the exit status.

## Main definitions

* `Command.runOver`: a run over any source of frames.
* `Command.trail`: what a scanner still brings about behind a request to stop.
* `Command.ReachesLimit`: a run writes as many lines as it may.
* `Command.Matches`: a run over a channel beside the run over its scanner.
* `Command.threaded_output`: what a channel changes in a run, whatever steps its producer makes.
-/

namespace Munch

namespace Scanner

variable {s t : Scanner}

/-- Of what a scanner hands out, the last item is the one that a request to stop lets through. -/
theorem closes_of_isLast {item : Except ScanError Frame} (h : s.next false = (some item, t))
    (last : Channel.isLast item = true) : Closes item := by
  obtain ⟨input, passes⟩ := s
  cases passes with
  | nil => cases h
  | cons p around =>
    rcases scanned : scanInnermost p around input with ⟨⟨m, q⟩ | pos | ⟨e, pos⟩, left⟩
    · rw [next_of_found scanned] at h
      cases h
      cases last
    · rw [next_of_exhausted scanned] at h
      cases h
      obtain rfl : around = [] := by
        simpa [Channel.isLast, Frame.isSentinel, Frame.isEnd, Frame.ending] using last
      exact .sentinel pos
    · rw [next_of_failed scanned] at h
      cases h
      exact .failure _

theorem head?_results (s : Scanner) : s.results.head? = (s.next false).1 := by
  rcases called : s.next false with ⟨_ | e | f, t⟩
  · rw [results_of_none called]
    rfl
  · rw [results_of_error called]
    rfl
  · rw [results_of_frame called]
    rfl

end Scanner

namespace Channel

variable {σ : Type} [FrameSource σ] {channel : σ → Channel} {t : σ}

/-- A request to stop hangs up the channel, whose producer makes steps before. -/
def Hangs (channel : σ → Channel) : Prop :=
  ∀ s, ∃ ys c, (∀ y ∈ ys, y.ofProducer = true) ∧ Steps (channel s) ys c ∧
    channel (FrameSource.stop s) = c.hangUp

theorem continuation_hangUp (c : Channel) : c.hangUp.continuation = c.continuation := by
  rw [hangUp]
  split <;> rfl

/-- Behind a request to stop, a pull finds nothing. -/
theorem pull_of_stop (threads : Threads channel) (hangs : Hangs channel)
    (settled : (channel t).continuation = .settled) :
    (FrameSource.pull (FrameSource.stop t)).1 = .ok none := by
  obtain ⟨xs, c, -, steps, stopped⟩ := hangs t
  have deaf : (channel (FrameSource.stop t)).connected = false := by
    rw [stopped]
    exact connected_hangUp c
  have still : (channel (FrameSource.stop t)).continuation = .settled := by
    rw [stopped, continuation_hangUp, steps.continuation_eq, settled]
  obtain ⟨ys, -, pulls⟩ := threads _ still
  refine (silent_of_deaf deaf pulls).nothing _ ?_
  simp [received_append]

/-- A channel whose producer makes steps in a pull only. -/
theorem threads_id : Threads (id : Channel → Channel) := fun _ settled => steps_pull settled

theorem hangs_id : Hangs (id : Channel → Channel) := fun c => ⟨[], c, nofun, .refl c, rfl⟩

theorem hangs_scheduled : Hangs Scheduled.channel := by
  intro s
  obtain ⟨ys, own, steps⟩ := steps_workFor s.channel (s.schedule.headD 0)
  exact ⟨ys, _, own, steps, rfl⟩

end Channel

namespace Command

section Lines

variable {σ : Type} [FrameSource σ] [FiniteSource σ] {format : Format} {limit : Option Nat}
  {count : Nat} {s t : σ}

theorem frameLines_of_error {e : LexError} (h : FrameSource.pull s = (.error e, t)) :
    frameLines format limit count s = .failed (.lexing e) := by
  rw [frameLines]
  split <;> simp_all

theorem frameLines_of_none (h : FrameSource.pull s = (.ok none, t)) :
    frameLines format limit count s = .done := by
  rw [frameLines]
  split <;> simp_all

theorem frameLines_of_frame {f : Frame} (h : FrameSource.pull s = (.ok (some f), t)) :
    frameLines format limit count s = .write (frameLine format f)
      (if f.isSentinel then .done
      else frameLines format limit (count + 1)
        (if limit = some (count + 1) then FrameSource.stop t else t)) := by
  rw [frameLines]
  split <;> simp_all

variable {l m : Lexer σ Shell.Kind}

theorem tokenLines_of_end (h : l.lex = (none, m)) : tokenLines format limit count l = .done := by
  rw [tokenLines]
  split <;> simp_all

theorem tokenLines_of_error {e : LexError} (h : l.lex = (some (.error e), m)) :
    tokenLines format limit count l = .failed (.lexing e) := by
  rw [tokenLines]
  split <;> simp_all

theorem tokenLines_of_token {t : Token Shell.Kind} (h : l.lex = (some (.ok t), m)) :
    tokenLines format limit count l = .write (tokenLine format t)
      (tokenLines format limit (count + 1) (if limit = some (count + 1) then m.stop else m)) := by
  rw [tokenLines]
  split <;> simp_all

end Lines

/-! ## Tokens -/

section Tokens

open Lexer (StandsFor)

variable {σ τ : Type} [FrameSource σ] [FiniteSource σ] [FrameSource τ] [FiniteSource τ]
  {R : σ → τ → Prop}

theorem lex_withSource (alike : Alike R) {K : Type} (l : Lexer σ K) {t : τ}
    (h : StandsFor R l t) :
    ∃ u, (l.withSource t).lex = (l.lex.1, l.lex.2.withSource u) ∧ StandsFor R l.lex.2 u := by
  obtain ⟨u, lexes, stands⟩ := Lexer.lexes_withSource alike (Lexer.lexes_iff.2 rfl) h
  exact ⟨u, Lexer.lexes_iff.1 lexes, stands⟩

/-- The lines of tokens are the same over a source that is alike, as a lexer does not pull any more
once it has requested a stop. -/
theorem tokenLines_withSource (alike : Alike R) (format : Format) (limit : Option Nat)
    (count : Nat) (l : Lexer σ Shell.Kind) {t : τ} (h : StandsFor R l t) :
    tokenLines format limit count (l.withSource t) = tokenLines format limit count l := by
  induction bound : l.supply using Nat.strongRecOn generalizing l t count with
  | _ n ih =>
    obtain ⟨u, same, stands⟩ := lex_withSource alike l h
    rcases lexed : l.lex with ⟨_ | e | token, m⟩ <;> rw [lexed] at same stands
    · rw [tokenLines_of_end lexed, tokenLines_of_end same]
    · rw [tokenLines_of_error lexed, tokenLines_of_error same]
    · have less : m.supply < n := bound ▸ Lexer.supply_lex_lt lexed
      rw [tokenLines_of_token lexed, tokenLines_of_token same]
      by_cases full : limit = some (count + 1)
      · obtain ⟨v, stopped, halted⟩ := Lexer.stop_withSource m u
        have fewer := Nat.lt_of_le_of_lt m.supply_stop_le less
        rw [if_pos full, if_pos full, stopped,
          ih _ fewer (count + 1) m.stop (Lexer.standsFor_of_halted halted) rfl]
      · rw [if_neg full, if_neg full, ih _ less (count + 1) m stands rfl]

end Tokens

/-! ## Frames -/

/-- The lines of a report with those of another behind them. -/
def Report.followedBy (r behind : Report) : Report := ⟨r.lines ++ behind.lines, behind.failure⟩

/-- What a scanner still brings about behind a request to stop, by the item that would come next:
the sentinel and a read failure come through. -/
def trail (format : Format) : Option (Except ScanError Frame) → Report
  | some (.ok f) => if f.isSentinel then .write (frameLine format f) .done else .done
  | some (.error e) => .failed (.lexing (.scan e))
  | none => .done

/-- Of two runs, the first ends at the limit, and the second goes on with what comes through a
request to stop: `items` are those that a scanner has still to give, and `count` lines were written
before. -/
structure EndsAtLimit (format : Format) (limit : Option Nat) (count : Nat)
    (items : List (Except ScanError Frame)) (r r' : Report) : Prop where
  full : limit = some (count + r.lines.length)
  calm : r.failure = none
  behind : r' = r.followedBy (trail format items[r.lines.length]?)

/-- The run comes to its limit: it writes as many lines as it may, `count` before it. -/
def ReachesLimit (limit : Option Nat) (count : Nat) (r : Report) : Prop :=
  ∃ n, 0 < n ∧ limit = some (count + n) ∧ n ≤ r.lines.length

/-- A run over a channel beside the same run over its scanner: it ends at the limit if that one
comes to it, and else it gives the same report. -/
structure Alongside (format : Format) (limit : Option Nat) (count : Nat)
    (items : List (Except ScanError Frame)) (threaded inline : Report) : Prop where
  limited : ReachesLimit limit count inline →
    EndsAtLimit format limit count items threaded inline
  unlimited : ¬ReachesLimit limit count inline → threaded = inline

theorem EndsAtLimit.write {format : Format} {limit : Option Nat} {count : Nat}
    {items : List (Except ScanError Frame)} {r r' : Report}
    (h : EndsAtLimit format limit (count + 1) items r r') (item : Except ScanError Frame)
    (line : String) :
    EndsAtLimit format limit count (item :: items) (r.write line) (r'.write line) where
  full := by rw [h.full, Report.write, List.length_cons, Nat.add_right_comm, Nat.add_assoc]
  calm := h.calm
  behind := by
    rw [h.behind]
    simp [Report.write, Report.followedBy]

theorem not_reachesLimit_of_silent {limit : Option Nat} {count : Nat} {r : Report}
    (silent : r.lines = []) : ¬ReachesLimit limit count r := by
  rintro ⟨n, pos, -, le⟩
  rw [silent, List.length_nil] at le
  omega

/-- Behind a line that is not the last one of the limit, a run comes to it or not as before. -/
theorem reachesLimit_write {limit : Option Nat} {count : Nat} (more : limit ≠ some (count + 1))
    (line : String) (r : Report) :
    ReachesLimit limit count (r.write line) ↔ ReachesLimit limit (count + 1) r := by
  constructor
  · rintro ⟨n, pos, full, le⟩
    obtain ⟨n, rfl⟩ := Nat.exists_eq_succ_of_ne_zero (Nat.ne_of_gt pos)
    have further : n ≠ 0 := by
      rintro rfl
      exact more full
    refine ⟨n, Nat.pos_of_ne_zero further, ?_, Nat.le_of_succ_le_succ le⟩
    rw [full, Nat.add_right_comm, Nat.add_assoc]
  · rintro ⟨n, -, full, le⟩
    refine ⟨n + 1, Nat.succ_pos n, ?_, Nat.succ_le_succ le⟩
    rw [full, Nat.add_right_comm, Nat.add_assoc]

theorem alongside_of_silent {format : Format} {limit : Option Nat} {count : Nat}
    {items : List (Except ScanError Frame)} {r : Report} (silent : r.lines = []) :
    Alongside format limit count items r r where
  limited reaches := absurd reaches (not_reachesLimit_of_silent silent)
  unlimited _ := rfl

theorem Alongside.write {format : Format} {limit : Option Nat} {count : Nat}
    {items : List (Except ScanError Frame)} {r r' : Report}
    (h : Alongside format limit (count + 1) items r r') (more : limit ≠ some (count + 1))
    (item : Except ScanError Frame) (line : String) :
    Alongside format limit count (item :: items) (r.write line) (r'.write line) where
  limited reaches := (h.limited ((reachesLimit_write more line r').1 reaches)).write item line
  unlimited short :=
    congrArg (Report.write line) (h.unlimited (mt (reachesLimit_write more line r').2 short))

section Frames

open Channel (Threads Hangs Carries)

variable {σ : Type} [FrameSource σ] [FiniteSource σ] {channel : σ → Channel} {format : Format}
  {limit : Option Nat} {count : Nat} {s s' : Inline} {t t' : σ}

theorem frameLines_of_raised (raised : s.raised = true) :
    frameLines format limit count s = trail format s.scanner.results.head? := by
  rw [Scanner.head?_results]
  rcases called : s.scanner.next true with ⟨_ | item, scanner⟩
  · have pulled : FrameSource.pull s = (.ok none, { s with scanner }) := by
      simp [FrameSource.pull, Inline.pull, raised, called]
    rw [frameLines_of_none pulled]
    -- Nothing came through, so what would come next is none of what does.
    have through {item : Except ScanError Frame} (free : (s.scanner.next false).1 = some item)
        (closes : Scanner.Closes item) : False := by
      have here := Scanner.next_true_eq_some_iff.2 ⟨free, closes⟩
      rw [called] at here
      cases here
    rcases free : s.scanner.next false with ⟨_ | e | f, other⟩
    · rfl
    · exact (through (congrArg Prod.fst free) (.failure e)).elim
    · cases last : f.isSentinel with
      | false => simp [trail, last]
      | true =>
        have closes := Scanner.closes_of_isLast free last
        exact (through (congrArg Prod.fst free) closes).elim
  · obtain ⟨free, closes⟩ := Scanner.next_true_eq_some_iff.1 (congrArg Prod.fst called)
    rw [free]
    cases closes with
    | sentinel pos =>
      have pulled : FrameSource.pull s = (.ok (some (.ending pos 0)), { s with scanner }) := by
        simp [FrameSource.pull, Inline.pull, raised, called]
      rw [frameLines_of_frame pulled]
      rfl
    | failure e =>
      have pulled : FrameSource.pull s = (.error (.scan e), { s with scanner }) := by
        simp [FrameSource.pull, Inline.pull, raised, called]
      rw [frameLines_of_error pulled]
      rfl

/-- At the limit a channel that is hung up brings nothing more, and its scanner what comes
through. -/
theorem endsAtLimit_of_full (threads : Threads channel) (hangs : Hangs channel)
    (carries : Carries channel s t) (full : limit = some (count + 1)) (line : String)
    (item : Except ScanError Frame) :
    EndsAtLimit format limit count (item :: s.scanner.results)
      (.write line (frameLines format limit (count + 1) (FrameSource.stop t)))
      (.write line (frameLines format limit (count + 1) (FrameSource.stop s))) := by
  have nothing := Channel.pull_of_stop threads hangs carries.settled
  have threaded : frameLines format limit (count + 1) (FrameSource.stop t) = .done :=
    frameLines_of_none (Prod.ext nothing rfl)
  have inline : frameLines format limit (count + 1) (FrameSource.stop s) =
      trail format s.scanner.results.head? := frameLines_of_raised rfl
  rw [threaded, inline]
  exact ⟨full, rfl, by simp [Report.write, Report.followedBy, Report.done, List.head?_eq_getElem?]⟩

omit [FiniteSource σ] in
/-- A pull finds the same over a channel and over its scanner, and leaves the other items. -/
theorem pulls_of_carries (threads : Threads channel) (carries : Carries channel s t) :
    ∃ a s' t', FrameSource.pull s = (a, s') ∧ FrameSource.pull t = (a, t') ∧
      ∀ f, a = .ok (some f) → s.scanner.results = .ok f :: s'.scanner.results ∧
        (f.isSentinel = false → Carries channel s' t') := by
  obtain ⟨given, follows⟩ := Inline.pull_results carries.unraised
  obtain ⟨same, carried⟩ := Channel.alike_carries threads s t carries
  refine ⟨(FrameSource.pull s).1, (FrameSource.pull s).2, (FrameSource.pull t).2, rfl,
    Prod.ext same rfl, fun f frame => ⟨?_, carried f frame⟩⟩
  rw [(follows f frame).2]
  rw [frame] at given
  cases items : s.scanner.results with
  | nil =>
    rw [items] at given
    cases given
  | cons item rest =>
    rw [items] at given
    have first : Channel.answer (.ok f) = Channel.answer item := given
    rw [Channel.answer_injective first, List.tail_cons]

/-- The sentinel is the last result. -/
theorem results_of_sentinel {f : Frame} (unraised : s.raised = false)
    (pulled : FrameSource.pull s = (.ok (some f), s')) (last : f.isSentinel = true) :
    s'.scanner.results = [] := by
  rcases called : s.scanner.next false with ⟨_ | e | g, scanner⟩ <;>
    simp only [FrameSource.pull, Inline.pull, unraised, called] at pulled
  · cases pulled
  · cases pulled
  · cases pulled
    exact Scanner.results_of_ended ((Scanner.isLast_iff called).1 last)

/-- Over a channel the lines of frames are up to the limit, or all of them if there are fewer. -/
theorem frameLines_over (threads : Threads channel) (hangs : Hangs channel)
    (carries : Carries channel s t) :
    Alongside format limit count s.scanner.results (frameLines format limit count t)
      (frameLines format limit count s) := by
  induction bound : FiniteSource.supply s using Nat.strongRecOn generalizing s t count with
  | _ n ih =>
    obtain ⟨a, s', t', pulled, pulled', follows⟩ := pulls_of_carries threads carries
    rcases a with e | _ | f
    · rw [frameLines_of_error pulled, frameLines_of_error pulled']
      exact alongside_of_silent rfl
    · rw [frameLines_of_none pulled, frameLines_of_none pulled']
      exact alongside_of_silent rfl
    · obtain ⟨items, carried⟩ := follows f rfl
      rw [frameLines_of_frame pulled, frameLines_of_frame pulled', items]
      by_cases full : limit = some (count + 1)
      · refine ⟨fun _ => ?_, fun short => absurd ⟨1, Nat.one_pos, full, Nat.succ_pos _⟩ short⟩
        cases last : f.isSentinel with
        | true =>
          rw [results_of_sentinel carries.unraised pulled last]
          exact ⟨full, rfl, rfl⟩
        | false =>
          rw [if_pos full, if_pos full]
          exact endsAtLimit_of_full threads hangs (carried last) full _ _
      · cases last : f.isSentinel with
        | true => exact (alongside_of_silent rfl).write full _ _
        | false =>
          rw [if_neg full, if_neg full]
          have less : FiniteSource.supply s' < n := bound ▸ FiniteSource.supply_pull_lt pulled
          exact (ih _ less (carried last) rfl).write full _ _

end Frames

/-! ## The whole run -/

/-- The lines of a text when any source of frames takes the place of its scanner. -/
def runOver {σ : Type} [FrameSource σ] [FiniteSource σ] (g : Grammar Shell.Kind)
    (source : Scanner → σ) (options : Options) (styled : Bool) (text : Input) : Report :=
  sourceLines options (if options.json then .json else .plain styled) g
    (source (Scanner.start g.automata text))

/-- The command runs over a channel if it is asked to, and over the scanner itself if not. -/
theorem run_of_grammar {g : Grammar Shell.Kind} (built : Shell.grammar = .ok g)
    (options : Options) (styled : Bool) (text : Input) :
    run options styled text = if options.threaded then runOver g Channel.spawn options styled text
      else runOver g (Inline.mk · false) options styled text := by
  unfold run
  generalize Shell.grammar = made at built
  subst built
  rfl

/-- A run over a channel, where one over the scanner itself gives the report `inline`. Of frames it
writes those up to the limit; else it writes the same lines and fails in the same way. -/
structure Matches (options : Options) (styled : Bool) (items : List (Except ScanError Frame))
    (inline threaded : Report) : Prop where
  frames : options.frames = true →
    Alongside (if options.json then .json else .plain styled) options.limit 0 items threaded inline
  tokens : options.frames = false → threaded = inline

theorem runOver_matches {σ : Type} [FrameSource σ] [FiniteSource σ] {channel : σ → Channel}
    (threads : Channel.Threads channel) (hangs : Channel.Hangs channel) {source : Scanner → σ}
    (spawned : ∀ s, channel (source s) = .spawn s) (g : Grammar Shell.Kind) (options : Options)
    (styled : Bool) (text : Input) :
    Matches options styled (Scanner.start g.automata text).results
      (runOver g (Inline.mk · false) options styled text)
      (runOver g source options styled text) := by
  have carries : Channel.Carries channel ⟨Scanner.start g.automata text, false⟩
      (source (Scanner.start g.automata text)) := by
    refine ⟨rfl, ?_, ?_, ?_⟩ <;> rw [spawned]
    · rfl
    · rfl
    · exact Channel.outlook_spawn g.automata text .settled (Channel.coming_results _)
  constructor <;> intro shown <;> simp only [runOver, sourceLines, shown, if_pos,
    if_neg Bool.false_ne_true]
  · exact frameLines_over threads hangs carries
  · exact tokenLines_withSource (Channel.alike_carries threads) _ _ 0 (.start g _ _) fun _ => carries

/-- With its scanner on a thread of its own a run writes the same lines and fails in the same way,
whatever steps the producer makes before each pull and before the request to stop. Only where frames
are written up to a limit does a run without a thread go on behind the limit, with what comes
through the request. -/
theorem threaded_output {σ : Type} [FrameSource σ] [FiniteSource σ] {channel : σ → Channel}
    (threads : Channel.Threads channel) (hangs : Channel.Hangs channel) (source : Scanner → σ)
    (spawned : ∀ s, channel (source s) = .spawn s) (options : Options) (styled : Bool)
    (text : Input) :
    ∃ g, Shell.grammar = .ok g ∧
      let items := (Scanner.start g.automata text).results
      let inline := run { options with threaded := false } styled text
      Matches options styled items inline (run { options with threaded := true } styled text) ∧
        Matches options styled items inline (runOver g source options styled text) := by
  cases built : Shell.grammar with
  | error e =>
    have ok := Shell.isOk_grammar
    rw [built] at ok
    cases ok
  | ok g =>
    refine ⟨g, rfl, ?_⟩
    rw [run_of_grammar built, run_of_grammar built]
    exact ⟨runOver_matches Channel.threads_id Channel.hangs_id (fun _ => rfl) g options styled text,
      runOver_matches threads hangs spawned g options styled text⟩

/-- At the limit of two frames, a word and the blank behind it, the scanner still gives its sentinel,
and the channel, whose producer makes three steps before the first pull, does not. -/
theorem threaded_output_under_schedule :
    let options : Options := { frames := true, limit := some 2 }
    let source : Scanner → Scheduled := fun s => { channel := .spawn s, schedule := [3] }
    let text : Input := .ofString "a "
    (∀ s, (source s).channel = .spawn s) ∧ (run options false text).lines.length = 3 ∧
      ∃ g, Shell.grammar = .ok g ∧
        EndsAtLimit (.plain false) (some 2) 0 (Scanner.start g.automata text).results
          (runOver g source options false text) (run options false text) := by
  intro options source text
  have written : (run options false text).lines.length = 3 := by decide +kernel
  obtain ⟨g, built, -, matched⟩ := threaded_output Channel.threads_scheduled
    Channel.hangs_scheduled source (fun _ => rfl) options false text
  have reaches : ReachesLimit options.limit 0 (run options false text) :=
    ⟨2, Nat.two_pos, rfl, by omega⟩
  exact ⟨fun _ => rfl, written, g, built, (matched.frames rfl).limited reaches⟩

/-- At the limit of one frame the sentinel is written, or invalid bytes behind the limit are found,
only if the scanner runs without a thread of its own. -/
theorem threaded_output_differs_at_limit :
    let opened (bytes : List UInt8) : Option String → Except ReadError Input :=
      fun _ => .ok (Reader.toInput { chunks := [.bytes bytes] })
    let inline := fun bytes => outcome false (opened bytes) ["--frames", "--limit", "1"]
    let threaded :=
      fun bytes => outcome false (opened bytes) ["--frames", "--limit", "1", "--threaded"]
    ((inline [0x61]).output = "0:0  6 \"a\"\n0:1  end\n" ∧
      (threaded [0x61]).output = "0:0  6 \"a\"\n") ∧
    (inline [0x61, 0x20, 0xff]).status = 2 ∧ (threaded [0x61, 0x20, 0xff]).status = 0 := by
  decide +kernel

end Command
end Munch
