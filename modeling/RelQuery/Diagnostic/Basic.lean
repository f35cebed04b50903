/-
Diagnostics and how they are shown.

A located diagnostic is shown under the line it speaks of, with a
caret at the column: the padding before the caret keeps the tabs of
the line, so that the two lines stay aligned whatever a tab is wide.
-/
import RelQuery.Diagnostic.Code
import RelQuery.Text.Location

namespace RelQuery

/-- How bad a diagnostic is. -/
inductive Severity where
  | error
  | warning
  | info
  deriving DecidableEq, Repr, Inhabited

/-- The written form of a severity. -/
def Severity.text : Severity → String
  | .error => "error"
  | .warning => "warning"
  | .info => "info"

/-- A secondary remark of a diagnostic. -/
structure Note where
  message : String
  location : Option Location
  deriving DecidableEq, Repr, Inhabited

/-- One reported problem. -/
structure Diagnostic where
  severity : Severity
  code : Code
  message : String
  location : Option Location
  help : Option String
  related : List Note
  deriving DecidableEq, Repr, Inhabited

namespace Diagnostic

/-- A bare diagnostic of error severity. -/
def error (code : Code) (message : String) : Diagnostic :=
  ⟨.error, code, message, none, none, []⟩

/-- A bare diagnostic of warning severity. -/
def warning (code : Code) (message : String) : Diagnostic :=
  ⟨.warning, code, message, none, none, []⟩

/-- ` at line:column`, or nothing. -/
def place : Option Location → String
  | some location => " at " ++ location.text
  | none => ""

/-- The label `severity[code]`. -/
def label (d : Diagnostic) : String :=
  d.severity.text ++ "[" ++ d.code.text ++ "]"

/-- The written form on one line. -/
def text (d : Diagnostic) : String :=
  d.label ++ ": " ++ d.message ++ place d.location

-- ======================================================== rendering

/-- The terminal sequence that starts the colour of a severity. -/
def colour : Severity → String
  | .error => "\x1b[1;31m"
  | .warning => "\x1b[1;33m"
  | .info => "\x1b[36m"

/-- Wraps a text in the colour of a severity when `color` is on. -/
def paint (color : Bool) (severity : Severity) (s : String) : String :=
  if color then colour severity ++ s ++ "\x1b[0m" else s

/-- The blanks that bring a caret under column `column` of `line`. -/
def padding (line : List Char) (column : Nat) : List Char :=
  (line.take (column - 1)).map fun c => if c == '\t' then '\t' else ' '

/-- The source line of a location and the caret line under it, each
with its newline. -/
def excerpt (d : Diagnostic) (source : List Char) (color : Bool) : String :=
  match d.location with
  | none => ""
  | some location =>
    let line := lineText source location.line
    String.ofList line ++ "\n" ++ String.ofList (padding line location.column) ++
      paint color d.severity "^" ++ "\n"

/-- The line that shows a note. -/
def noteLine (note : Note) : String :=
  "\n  note: " ++ note.message ++ place note.location

/-- The diagnostic as shown against the text it speaks of. -/
def render (d : Diagnostic) (source : List Char) (color : Bool) : String :=
  d.excerpt source color ++ paint color d.severity d.label ++ ": " ++ d.message ++
    place d.location ++ (d.help.elim "" ("\n  help: " ++ ·)) ++
    String.join (d.related.map noteLine)

end Diagnostic

end RelQuery
