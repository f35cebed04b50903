/-
What a run of the command line puts out.

A run that fails keeps what it has put out until then; the failure
itself becomes the last line of the error output.
-/
import RelQuery.Text.Blank

namespace RelQuery.CommandLine

/-- A colour or other style of terminal output. -/
inductive Style where
  | bold
  | dim
  | red
  | green
  | yellow
  | cyan
  | boldRed
  | boldGreen
  | boldYellow
  | boldCyan
  deriving DecidableEq, Repr

/-- The terminal sequence that starts a style. -/
def Style.start : Style → String
  | .bold => "\x1b[1m"
  | .dim => "\x1b[2m"
  | .red => "\x1b[31m"
  | .green => "\x1b[32m"
  | .yellow => "\x1b[33m"
  | .cyan => "\x1b[36m"
  | .boldRed => "\x1b[1;31m"
  | .boldGreen => "\x1b[1;32m"
  | .boldYellow => "\x1b[1;33m"
  | .boldCyan => "\x1b[1;36m"

/-- The terminal sequence that ends every style. -/
def resetStyle : String := "\x1b[0m"

/-- The text in a style when colours are on. A reset inside the text
does not end the style. -/
def paint (color : Bool) (style : Style) (s : String) : String :=
  if color then style.start ++ s.replace resetStyle (resetStyle ++ style.start) ++ resetStyle else s

/-- The output of a run. -/
structure Output where
  out : String := ""
  err : String := ""
  /-- Files written, in order. -/
  written : List (String × List UInt8) := []
  deriving Repr, Inhabited

namespace Output

/-- One output after another. -/
def append (a b : Output) : Output :=
  ⟨a.out ++ b.out, a.err ++ b.err, a.written ++ b.written⟩

instance : Append Output := ⟨append⟩

/-- A line of normal output. -/
def line (s : String) : Output := { out := s ++ "\n" }

/-- A line of error output. -/
def errorLine (s : String) : Output := { err := s ++ "\n" }

/-- One output after another. -/
def concat (parts : List Output) : Output :=
  parts.foldl append {}

end Output

/-- The line that reports a failed run. -/
def failureLine (color : Bool) (message : String) : String :=
  paint color .boldRed "Error:" ++ " " ++ message

/-- The line that reports a warning. -/
def warningLine (color : Bool) (message : String) : String :=
  paint color .boldYellow "Warning:" ++ " " ++ message

/-- The line that reports success. -/
def successLine (color : Bool) (message : String) : String :=
  paint color .boldGreen "Success:" ++ " " ++ message

/-- What a run needs of the machine it runs on. -/
structure Host where
  /-- The content of a file, or why it cannot be read. -/
  read : String → Except String (List UInt8)
  /-- Why a file cannot be written, if it cannot. -/
  refusal? : String → Option String
  /-- Whether output goes to a terminal. -/
  terminal : Bool

/-- A step of a run: fails with a message, keeps its output. -/
abbrev Run := EStateM String Output

namespace Run

def put (o : Output) : Run Unit :=
  modify (· ++ o)

def print (s : String) : Run Unit :=
  put (.line s)

def printError (s : String) : Run Unit :=
  put (.errorLine s)

/-- The text of a file. -/
def source (host : Host) (path : String) : Run (List Char) :=
  match host.read path with
  | .error reason => throw s!"Failed to read {path}: {reason}"
  | .ok bytes =>
    match String.fromUTF8? ⟨bytes.toArray⟩ with
    | some text => pure text.toList
    | none => throw s!"Failed to read {path}: stream did not contain valid UTF-8"

/-- Writes a file; `what` begins the message of a failure. -/
def write (host : Host) (what path : String) (bytes : List UInt8) : Run Unit :=
  match host.refusal? path with
  | some reason => throw s!"{what} {path}: {reason}"
  | none => put { written := [(path, bytes)] }

end Run

end RelQuery.CommandLine
