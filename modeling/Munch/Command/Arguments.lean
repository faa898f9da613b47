import Munch.Lexer.Basic

/-!
# Command line arguments

Words are read from left to right. A word that asks for help or for the version decides at
once, and so does one that is not known; everything else is examined when all words are read:
first whether every option has its value and nothing was given twice, then the values. An
option takes its value after an equals sign or from the next word, unless that word is an
option itself. Behind `--` every word names the file, of which there is at most one.

## Main definitions

* `Word.ofChars`: what a word is on its own.
* `Request.parse`: what a command line asks for.
-/

namespace Munch.Command

/-- Options without a value. -/
inductive Flag where
  | frames | json | threaded
deriving DecidableEq

/-- Options with a number for their value. -/
inductive Setting where
  | limit | lookahead
deriving DecidableEq

/-- What can be given on the command line besides the file. -/
inductive Argument where
  | flag (flag : Flag)
  | setting (setting : Setting)
deriving DecidableEq

namespace Flag

/-- The name of a flag, which follows two dashes. -/
def name : Flag → String
  | frames => "frames"
  | json => "json"
  | threaded => "threaded"

/-- All flags. -/
def all : List Flag := [frames, json, threaded]

end Flag

namespace Setting

/-- The name of a setting, which follows two dashes. -/
def name : Setting → String
  | limit => "limit"
  | lookahead => "lookahead"

/-- All settings. -/
def all : List Setting := [limit, lookahead]

end Setting

/-- How an argument is written. -/
def Argument.usage : Argument → String
  | flag f => "--" ++ f.name
  | setting s => "--" ++ s.name ++ " <" ++ s.name ++ ">"

/-- Why a command line is refused. -/
inductive ArgumentError where
  /-- The word is not an option, or there is a file already. -/
  | unexpected (word : String)
  | missingValue (setting : Setting)
  | repeated (argument : Argument)
  /-- The value is not a number that fits a 64-bit word. -/
  | notNumber (value : String)
  | zero (setting : Setting)
deriving DecidableEq

/-- The wording of a refusal. -/
def ArgumentError.message : ArgumentError → String
  | unexpected word =>
    "error: Found argument '" ++ word ++ "' which wasn't expected, or isn't valid in this context"
  | missingValue s =>
    "error: The argument '" ++ (Argument.setting s).usage ++
      "' requires a value but none was supplied"
  | repeated a =>
    "error: The argument '" ++ a.usage ++
      "' was provided more than once, but cannot be used multiple times"
  | notNumber value => "error: Invalid value: The argument '" ++ value ++ "' isn't a valid value"
  | zero s => "error: Invalid value: " ++ s.name ++ " must be at least 1"

/-- How text is to be made into tokens. -/
structure Options where
  /-- Show the frames instead of tokens. -/
  frames : Bool := false
  /-- Write JSON. -/
  json : Bool := false
  /-- Run the scanner beside the lexer. -/
  threaded : Bool := false
  /-- Stop after this many lines. -/
  limit : Option Nat := none
  /-- The capacity of the lexer's stack. -/
  lookahead : Nat := Lexer.defaultCapacity
  /-- The file with the text; without it, standard input. -/
  path : Option String := none
deriving DecidableEq

/-- What a command line asks for. -/
inductive Request where
  | help
  | version
  | run (options : Options)
deriving DecidableEq

/-- The name and version of the program. -/
def version : String := "slimsh 0.1.0"

/-- The description of the command line. -/
def help : String :=
  "\n".intercalate [
    version,
    "",
    "A POSIX shell front end built on a longest-match automata scanner",
    "",
    "USAGE:",
    "    slimsh [FLAGS] [OPTIONS] [FILE]",
    "",
    "FLAGS:",
    "        --frames      Print the raw frames instead of tokens",
    "    -h, --help        Prints help information",
    "        --json        Print one JSON object per line",
    "        --threaded    Run the scanner on its own thread",
    "    -V, --version     Prints version information",
    "",
    "OPTIONS:",
    "        --limit <limit>            Stop after N tokens",
    "        --lookahead <lookahead>    Capacity of the lookahead stack",
    "",
    "ARGS:",
    "    <FILE>    The script to tokenize, stdin when absent"]

/-- What a word is on its own. -/
inductive Word where
  | flag (flag : Flag)
  /-- A setting, with the value behind its equals sign. -/
  | setting (setting : Setting) (value : Option String)
  | help
  | version
  /-- What follows are no options. -/
  | separator
  | unknown (word : String)
  /-- A value or a file. -/
  | operand (text : String)

namespace Word

/-- A word by the name behind its dashes and the value behind its equals sign, of which any
further ones are dropped. A value given to a flag is ignored. -/
def ofLong (name : String) (value : Option String) : Word :=
  if name = "help" then help
  else if name = "version" then version
  else
    match Flag.all.find? (·.name = name), Setting.all.find? (·.name = name) with
    | some f, _ => flag f
    | none, some s => setting s value
    | none, none => unknown ("--" ++ name)

/-- What the characters of a word make it. The first letter behind a single dash decides. -/
def ofChars : List Char → Word
  | ['-', '-'] => separator
  | '-' :: '-' :: cs =>
    let long := cs.dropWhile (· = '-')
    let name := String.ofList (long.takeWhile (· ≠ '='))
    match long.dropWhile (· ≠ '=') with
    | [] => ofLong name none
    | value => ofLong name (some (String.ofList (value.dropWhile (· = '='))))
  | '-' :: c :: _ =>
    if c = 'h' then help
    else if c = 'V' then version
    else unknown (String.ofList ['-', c])
  | cs => operand (String.ofList cs)

end Word

/-- The arguments read so far. -/
structure Reading where
  /-- The options in order, repetitions included. -/
  uses : List Argument := []
  /-- The values in order. -/
  values : List (Setting × String) := []
  path : Option String := none
  /-- The option that takes the next word for its value. -/
  awaiting : Option Setting := none
  /-- The separator was read. -/
  separated : Bool := false

namespace Reading

/-- Take up a file. -/
def file (r : Reading) (text : String) : Except ArgumentError Reading :=
  match r.path with
  | none => .ok { r with path := some text }
  | some _ => .error (.unexpected text)

/-- Take up an option without a value so far. -/
def option (r : Reading) (a : Argument) (awaiting : Option Setting) : Reading :=
  { r with uses := r.uses ++ [a], awaiting }

/-- Take up the value of a setting. -/
def value (r : Reading) (s : Setting) (text : String) : Reading :=
  { r with values := r.values ++ [(s, text)], awaiting := none }

/-- The first value of a setting. -/
def value? (r : Reading) (s : Setting) : Option String := r.values.lookup s

/-- A setting needs a value, and nothing may be given twice. -/
def check (r : Reading) (a : Argument) : Except ArgumentError Unit := do
  if let .setting s := a then
    if (r.value? s).isNone then throw (.missingValue s)
  if 1 < r.uses.count a then throw (.repeated a)

/-- The digits of a number that fits a 64-bit word, with or without a plus sign before them. -/
def number? (text : String) : Option Nat :=
  let cs := text.toList
  let cs := if cs.head? = some '+' then cs.tail else cs
  if cs ≠ [] && cs.all (·.isDigit) then
    let n := cs.foldl (fun n c => 10 * n + (c.toNat - '0'.toNat)) 0
    if n < UInt64.size then some n else none
  else none

/-- The number given for a setting, which is at least one. -/
def number (r : Reading) (s : Setting) : Except ArgumentError (Option Nat) :=
  match r.value? s with
  | none => .ok none
  | some text =>
    match number? text with
    | none => .error (.notNumber text)
    | some 0 => .error (.zero s)
    | some n => .ok (some n)

/-- The options of a command line that was read to its end. An option that still awaits its
value is reported first. -/
def options (r : Reading) : Except ArgumentError Options := do
  if let some s := r.awaiting then
    if (r.value? s).isNone then throw (.missingValue s)
  r.uses.forM r.check
  let limit ← r.number .limit
  let lookahead ← r.number .lookahead
  return {
    frames := r.uses.contains (.flag .frames)
    json := r.uses.contains (.flag .json)
    threaded := r.uses.contains (.flag .threaded)
    limit
    lookahead := lookahead.getD Lexer.defaultCapacity
    path := r.path }

end Reading

namespace Request

/-- Read the words that are left. -/
def parseFrom (r : Reading) : List String → Except ArgumentError Request
  | [] => run <$> r.options
  | text :: rest =>
    if r.separated then do parseFrom (← r.file text) rest
    else
      match Word.ofChars text.toList with
      | .help => .ok help
      | .version => .ok version
      | .unknown word => .error (.unexpected word)
      | .separator => parseFrom { r with separated := true } rest
      | .flag f => parseFrom (r.option (.flag f) none) rest
      | .setting s none => parseFrom (r.option (.setting s) (some s)) rest
      | .setting s (some value) => parseFrom ((r.option (.setting s) none).value s value) rest
      | .operand text =>
        match r.awaiting with
        | some s => parseFrom (r.value s text) rest
        | none => do parseFrom (← r.file text) rest

/-- What a command line asks for, the name of the program not included. -/
def parse (words : List String) : Except ArgumentError Request := parseFrom {} words

end Request
end Munch.Command
