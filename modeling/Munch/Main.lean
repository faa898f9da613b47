import Munch.Command.Arrival

/-!
# The command

A run reads the file or standard input line by line and writes its own lines when the text that has
arrived settles them, so that it comes to a limit over a stream without end as well. Every other
request is answered by `Munch.Command.outcome` at once.
-/

namespace Munch.Main

open Command (Arrival Options)

/-- A failure as the operating system words it. -/
def ofSystem (e : IO.Error) : ReadError :=
  match e with
  | .noFileOrDirectory _ code details
  | .permissionDenied _ code details
  | .inappropriateType _ code details => ⟨"Os", s!"{details} (os error {code})"⟩
  | e => ⟨"Os", toString e⟩

/-- Open a file or standard input. -/
def openStream (path : Option String) : IO (Except ReadError IO.FS.Stream) := do
  try
    match path with
    | some name => return .ok (.ofHandle (← IO.FS.Handle.mk name .read))
    | none => return .ok (← IO.getStdin)
  catch e => return .error (ofSystem e)

/-- Bytes as a chunk. Without any there is none, as an empty one looks like the end. -/
def chunksOf (bytes : Array UInt8) : Array Chunk :=
  if bytes.isEmpty then #[] else #[.bytes bytes.toList]

/-- The bytes up to the end of the line behind those at hand, or as many as make a line long
enough. They are read one by one, because a read of several waits until all of them are there. -/
partial def readLine (stream : IO.FS.Stream) (bytes : Array UInt8) : IO Arrival := do
  match ← (stream.read 1).toBaseIO with
  | .error e => return { chunks := (chunksOf bytes).push (.failure (ofSystem e)), ended := true }
  | .ok next =>
    match next.toList with
    | [] => return { chunks := chunksOf bytes, ended := true }
    | b :: _ =>
      let bytes := bytes.push b
      if b = 10 || bytes.size = 8192 then return { chunks := chunksOf bytes }
      readLine stream bytes

/-- Read whole lines behind what has arrived, of so many bytes together. -/
partial def readOn (stream : IO.FS.Stream) (wanted : Nat) (a : Arrival) : IO Arrival := do
  let line ← readLine stream #[]
  let a := a.followedBy line
  if line.ended || wanted ≤ line.size then return a
  readOn stream (wanted - line.size) a

/-- Write what is left of an outcome. -/
def finish (result : Command.Outcome) : IO UInt32 := do
  IO.print result.output
  IO.eprint result.errors
  return UInt32.ofNat result.status

/-- Run over the text as it arrives, with `written` lines written before, which stay the first ones
(`Command.run_followedBy`). A short text is run over again behind each of its lines, a longer one
when it has doubled, which costs no more than another run over all of it. -/
partial def follow (options : Options) (styled : Bool) (stream : IO.FS.Stream) (written : Nat)
    (a : Arrival) : IO UInt32 := do
  let a ← readOn stream (if a.size ≤ 1024 then 1 else a.size) a
  let report := Command.run options styled a.text
  for line in report.lines.drop written do
    IO.println line
  (← IO.getStdout).flush
  if report.awaits then follow options styled stream report.lines.length a
  else finish { Command.Outcome.ofReport styled report with output := "" }

end Munch.Main

open Munch Command Main in
def main (words : List String) : IO UInt32 := do
  let terminal ← (← IO.getStdout).isTty
  let answer (opened : Except ReadError Input) : IO UInt32 :=
    finish (Command.outcome terminal (fun _ => opened) words)
  match Request.parse words with
  | .ok (.run options) =>
    match ← openStream options.path with
    | .ok stream => follow options (terminal && !options.json) stream 0 {}
    | .error e => answer (.error e)
  | _ => answer (.ok .empty)
