import Munch.Channel.Basic
import Munch.Command.Arguments
import Munch.Command.Lines
import Munch.Shell.Grammar
import Munch.Utf8.Reader

/-!
# Running the command

A run turns text into lines, one for each token or frame, until the text or the limit is
reached. Reaching the limit requests the source to stop and goes on as before, so whatever the
source still gives is written too. A failure ends the run after the lines written so far.

## Main definitions

* `tokenLines`, `frameLines`: the lines of a lexer and of a source.
* `run`: the lines and the failure of a run with given options.
* `Outcome.ofRequest`: what the command writes, and its exit status.
-/

namespace Munch.Command

/-- Why a run fails. -/
inductive Failure where
  | opening (error : ReadError)
  | grammar (error : BuildError)
  | lexing (error : LexError)

/-- The wording of a failure. -/
def Failure.message : Failure → String
  | opening e => e.message
  | grammar e => "invalid grammar: " ++ e.message
  | lexing e => e.message

/-- The lines written, in order, and the failure that ended them. -/
structure Report where
  lines : List String
  failure : Option Failure

namespace Report

/-- Nothing more is written. -/
def done : Report := ⟨[], none⟩

/-- Nothing more is written because of a failure. -/
def failed (f : Failure) : Report := ⟨[], some f⟩

/-- One more line in front. -/
def write (line : String) (r : Report) : Report := { r with lines := line :: r.lines }

end Report

section Lines

variable {σ : Type} [FrameSource σ] [FiniteSource σ]

/-- The lines of a lexer of which `count` were written before. At the limit the lexer is
stopped. -/
def tokenLines (format : Format) (limit : Option Nat) (count : Nat) (l : Lexer σ Shell.Kind) :
    Report :=
  match h : l.lex with
  | (none, _) => .done
  | (some (.error e), _) => .failed (.lexing e)
  | (some (.ok t), m) =>
    let next := if limit = some (count + 1) then m.stop else m
    have : next.supply < l.supply := by
      have := Lexer.supply_lex_lt h
      have := m.supply_stop_le
      simp only [next]
      split <;> omega
    .write (tokenLine format t) (tokenLines format limit (count + 1) next)
termination_by l.supply

/-- The lines of a source of which `count` were written before. At the limit the source is
requested to stop; the sentinel is the last line. -/
def frameLines (format : Format) (limit : Option Nat) (count : Nat) (s : σ) : Report :=
  match h : FrameSource.pull s with
  | (.error e, _) => .failed (.lexing e)
  | (.ok none, _) => .done
  | (.ok (some f), t) =>
    let next := if limit = some (count + 1) then FrameSource.stop t else t
    have : FiniteSource.supply next < FiniteSource.supply s := by
      have := FiniteSource.supply_pull_lt h
      have := FiniteSource.supply_stop_le t
      simp only [next]
      split <;> omega
    .write (frameLine format f)
      (if f.isSentinel then .done else frameLines format limit (count + 1) next)
termination_by FiniteSource.supply s

/-- The lines of a source under the shell grammar. -/
def sourceLines (options : Options) (format : Format) (g : Grammar Shell.Kind) (s : σ) : Report :=
  if options.frames then frameLines format options.limit 0 s
  else tokenLines format options.limit 0 (.start g s options.lookahead)

end Lines

/-- The lines of a text. Terminal styles are shown in plain output only. -/
def run (options : Options) (styled : Bool) (text : Input) : Report :=
  let format : Format := if options.json then .json else .plain styled
  match Shell.grammar with
  | .error e => .failed (.grammar e)
  | .ok g =>
    let scanner := Scanner.start g.automata text
    if options.threaded then sourceLines options format g (Channel.spawn scanner)
    else sourceLines options format g (Inline.mk scanner false)

/-- What the command writes, and its exit status. -/
structure Outcome where
  status : Nat
  output : String
  errors : String

namespace Outcome

/-- Text on standard output. -/
def success (output : String) : Outcome := ⟨0, output, ""⟩

/-- The outcome of a refused command line. -/
def refused (e : ArgumentError) : Outcome := ⟨1, "", e.message ++ "\n"⟩

/-- The outcome of a run. -/
def ofReport (styled : Bool) (r : Report) : Outcome where
  status := if r.failure.isSome then 2 else 0
  output := String.join (r.lines.map (· ++ "\n"))
  errors :=
    match r.failure with
    | none => ""
    | some f => errorLine styled f.message ++ "\n"

/-- The outcome of a run over a text that was opened, or could not be. Styles need a terminal
and are never mixed with JSON. -/
def ofRun (options : Options) (terminal : Bool) (opened : Except ReadError Input) : Outcome :=
  let styled := terminal && !options.json
  match opened with
  | .error e => ofReport styled (.failed (.opening e))
  | .ok text => ofReport styled (run options styled text)

end Outcome

/-- What the command does: `opened` is the file that the options name, or standard input. -/
def outcome (terminal : Bool) (opened : Option String → Except ReadError Input)
    (words : List String) : Outcome :=
  match Request.parse words with
  | .error e => .refused e
  | .ok .help => .success (help ++ "\n")
  | .ok .version => .success (version ++ "\n")
  | .ok (.run options) => .ofRun options terminal (opened options.path)

end Munch.Command
