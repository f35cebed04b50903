/-
The program: connects the command line to files and terminal.
-/
import RelQuery.CommandLine.Basic

namespace RelQuery.CommandLine

/-- The files that a command reads. -/
def Command.inputs : Command → List String
  | .compile file _ _ _ => [file]
  | .check files _ => files
  | .disasm file _ => [file]
  | .repl _ => []

/-- What the system says about a failure. -/
def systemReason : IO.Error → String
  | .noFileOrDirectory _ code details => s!"{details} (os error {code})"
  | .permissionDenied _ code details => s!"{details} (os error {code})"
  | .inappropriateType _ code details => s!"{details} (os error {code})"
  | .resourceExhausted _ code details => s!"{details} (os error {code})"
  | .invalidArgument _ code details => s!"{details} (os error {code})"
  | e => toString e

/-- The content of a file, or why it cannot be read. -/
def readFile (path : String) : IO (Except String (List UInt8)) := do
  try
    return .ok (← IO.FS.readBinFile path).toList
  catch e => return .error (systemReason e)

/-- Writes a file; gives the reason when it cannot. -/
def writeFile (path : String) (bytes : List UInt8) : IO (Option String) := do
  try
    IO.FS.writeBinFile path ⟨bytes.toArray⟩
    return none
  catch e => return some (systemReason e)

/-- Puts out what is not a file. -/
def Output.show (o : Output) : IO Unit := do
  let out ← IO.getStdout
  out.putStr o.out
  out.flush
  (← IO.getStderr).putStr o.err

/-- Whether both outputs go to a terminal. -/
def onTerminal : IO Bool := do
  return (← (← IO.getStdout).isTty) && (← (← IO.getStderr).isTty)

/-- Writes the files of an outcome; gives the first path that cannot
be written, with the reason. -/
def writeAll : List (String × List UInt8) → IO (Option (String × String))
  | [] => return none
  | (path, bytes) :: rest => do
    match ← writeFile path bytes with
    | some reason => return some (path, reason)
    | none => writeAll rest

/-- Runs a command on files. If a file turns out not to be writable,
the outcome is the one of a run that knows so. -/
def runFiles (i : Invocation) (terminal : Bool) : IO Outcome := do
  let contents ← i.command.inputs.mapM fun path => return (path, ← readFile path)
  let host : Host :=
    { read := fun path => (contents.lookup path).getD (.error "not read"), refusal? := fun _ => none
      terminal }
  let color := i.color.resolve terminal
  let outcome := Run.outcome color (i.run host [])
  match ← writeAll outcome.output.written with
  | none => return outcome
  | some (path, reason) =>
    let knowing := { host with refusal? := fun p => if p == path then some reason else none }
    return Run.outcome color (i.run knowing [])

/-- A line without its end. -/
def withoutEnd (line : String) : List Char :=
  match line.toList.reverse with
  | '\n' :: rest => (Text.dropReturn rest).reverse
  | rest => rest.reverse

/-- Talks until the input ends or a command ends it. -/
partial def talk (color : Bool) (r : Repl) (input : IO.FS.Stream) : IO Unit := do
  Output.show { out := r.prompt }
  let line ← input.getLine
  if line.isEmpty then return
  match r.next color (withoutEnd line) with
  | none => return
  | some (shown, next) =>
    shown.show
    talk color next input

end RelQuery.CommandLine

open RelQuery.CommandLine

def main (args : List String) : IO UInt32 := do
  let finish (o : Outcome) : IO UInt32 := do
    o.output.show
    return UInt32.ofNat o.status
  match Invocation.read args with
  | .error stop => finish stop.outcome
  | .ok i =>
    let terminal ← onTerminal
    match i.command with
    | .repl trace =>
      let color := i.color.resolve terminal
      (Repl.banner color).show
      talk color { options := { trace, color } } (← IO.getStdin)
      finish ⟨0, Repl.farewell⟩
    | _ => finish (← runFiles i terminal)
