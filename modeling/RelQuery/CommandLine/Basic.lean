/-
The command line as a whole: from arguments, files and input to output
and exit status.
-/
import RelQuery.CommandLine.Repl
import RelQuery.CommandLine.Report

namespace RelQuery.CommandLine

/-- What a run ends with. -/
structure Outcome where
  status : Nat
  output : Output
  deriving Repr, Inhabited

/-- How to use the command line. -/
def usage : String :=
  "Usage: relq [OPTIONS] <COMMAND>\n\n" ++
  "Commands:\n" ++
  "  compile  Compile a source file to bytecode\n" ++
  "  check    Type check source files\n" ++
  "  disasm   Print the bytecode listing of a source file\n" ++
  "  repl     Start the interactive compiler\n" ++
  "  help     Print this message\n\n" ++
  "Options:\n" ++
  "  -v, --verbose          Log compiler internals to stderr\n" ++
  "  -f, --format <FORMAT>  Output format: text or json\n" ++
  "      --color <COLOR>    Color output: auto, always or never\n" ++
  "  -h, --help             Print help\n" ++
  "  -V, --version          Print version\n"

/-- The outcome of arguments that give no command. -/
def Stop.outcome : Stop → Outcome
  | .wrong => ⟨2, { err := usage }⟩
  | .help => ⟨0, { out := usage }⟩
  | .version => ⟨0, .line "relq 0.1.0"⟩

/-- Whether output is coloured. -/
def ColorMode.resolve (mode : ColorMode) (terminal : Bool) : Bool :=
  match mode with
  | .always => true
  | .never => false
  | .auto => terminal

/-- Runs a command on the text of its standard input. -/
def Invocation.run (i : Invocation) (host : Host) (input : List Char) : Run Bool := do
  let color := i.color.resolve host.terminal
  match i.command with
  | .compile file output trace stopOnError =>
    compileFile host color i.format file output { trace, stopOnError, color }
  | .check files strict => checkFiles host color i.verbose strict i.format files
  | .disasm file output => disasmFile host color file output
  | .repl trace =>
    Run.put (Repl.run color { trace, color } input)
    return true

/-- The outcome of a run: status one when it fails or finds errors. -/
def Run.outcome (color : Bool) (run : Run Bool) : Outcome :=
  match run {} with
  | .ok success output => ⟨if success then 0 else 1, output⟩
  | .error message output => ⟨1, output ++ .errorLine (failureLine color message)⟩

/-- Runs the command line. -/
def run (host : Host) (args : List String) (input : List Char) : Outcome :=
  match Invocation.read args with
  | .error stop => stop.outcome
  | .ok i => Run.outcome (i.color.resolve host.terminal) (i.run host input)

end RelQuery.CommandLine
