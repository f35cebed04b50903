/-
One text compiled against an empty catalog.
-/
import RelQuery.Session.Basic

namespace RelQuery

/-- What compiling a text gave. -/
structure Compilation where
  statements : List Compiled
  diagnostics : List Diagnostic
  /-- The texts of all events, diagnostics included. -/
  lines : List String
  success : Bool
  deriving Repr

namespace Compilation

/-- Compiles a text against an empty catalog. -/
def ofText (text : List Char) (options : Options) : Compilation :=
  let (success, s) := ({ options } : Session).process text
  { statements := s.output, diagnostics := s.diagnostics
    lines := s.events.map (·.text false), success }

/-- How many diagnostics have the given severity. -/
def count (c : Compilation) (severity : Severity) : Nat :=
  (c.diagnostics.filter (·.severity == severity)).length

def errorCount (c : Compilation) : Nat := c.count .error

def warningCount (c : Compilation) : Nat := c.count .warning

end Compilation

end RelQuery
