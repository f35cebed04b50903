/-
The form of diagnostics in data exchange.
-/
import RelQuery.Diagnostic.Basic
import RelQuery.Text.Json

namespace RelQuery

/-- Counts are below this bound. -/
def countBound : Nat := 0x10000000000000000

namespace Location

def toJson (l : Location) : Json :=
  .object [("line", .nat l.line), ("column", .nat l.column), ("offset", .nat l.offset)]

def ofJson? (j : Json) : Option Location := do
  match ← Json.record? ["line", "column", "offset"] j with
  | [some line, some column, some offset] =>
    return ⟨← line.natBelow? countBound, ← column.natBelow? countBound,
      ← offset.natBelow? countBound⟩
  | _ => none

end Location

namespace Severity

def toJson : Severity → Json
  | .error => .string "Error"
  | .warning => .string "Warning"
  | .info => .string "Info"

def ofJson? (j : Json) : Option Severity := do
  let (name, content) ← Json.choice? j
  if Json.isUnit content then
    match name with
    | "Error" => some .error
    | "Warning" => some .warning
    | "Info" => some .info
    | _ => none
  else none

end Severity

namespace Note

def toJson (n : Note) : Json :=
  .object [("location", Json.optional Location.toJson n.location), ("message", .string n.message)]

def ofJson? (j : Json) : Option Note := do
  match ← Json.record? ["location", "message"] j with
  | [location, some message] =>
    return ⟨← message.string?, ← Json.nullable? Location.ofJson? location⟩
  | _ => none

end Note

namespace Diagnostic

/-- The exchange form. -/
def toJson (d : Diagnostic) : Json :=
  .object [("severity", d.severity.toJson), ("code", .nat d.code.number),
    ("message", .string d.message), ("location", Json.optional Location.toJson d.location),
    ("help", Json.optional Json.string d.help), ("related", .array (d.related.map Note.toJson))]

/-- Reads the exchange form. -/
def ofJson? (j : Json) : Option Diagnostic := do
  match ← Json.record? ["severity", "code", "message", "location", "help", "related"] j with
  | [some severity, some code, some message, location, help, some related] =>
    return { severity := ← Severity.ofJson? severity
             code := ⟨← code.natBelow? 65536⟩
             message := ← message.string?
             location := ← Json.nullable? Location.ofJson? location
             help := ← Json.nullable? Json.string? help
             related := ← Json.each? Note.ofJson? (← related.array?) }
  | _ => none

end Diagnostic

end RelQuery
