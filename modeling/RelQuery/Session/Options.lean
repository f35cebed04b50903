/-
The options of a session.
-/
import RelQuery.Text.Json

namespace RelQuery

/-- How much a session shows of its work. -/
inductive TraceLevel where
  /-- Errors only. -/
  | quiet
  /-- The text of each statement. -/
  | echo
  /-- And the type of its result. -/
  | types
  /-- And its code. -/
  | listing
  deriving DecidableEq, Repr, Inhabited

/-- A text that is no trace level. -/
structure BadTraceLevel where
  text : String
  deriving DecidableEq, Repr

def BadTraceLevel.message (e : BadTraceLevel) : String :=
  "invalid trace level '" ++ e.text ++ "', expected 0 to 3"

namespace TraceLevel

/-- The level as a number. -/
def rank : TraceLevel → Nat
  | .quiet => 0
  | .echo => 1
  | .types => 2
  | .listing => 3

/-- Whether a level shows what another one asks for. -/
def includes (level asked : TraceLevel) : Bool :=
  asked.rank ≤ level.rank

def ofRank? : Nat → Option TraceLevel
  | 0 => some .quiet
  | 1 => some .echo
  | 2 => some .types
  | 3 => some .listing
  | _ => none

/-- The name used in data exchange. -/
def name : TraceLevel → String
  | .quiet => "quiet"
  | .echo => "echo"
  | .types => "types"
  | .listing => "disassembly"

/-- The value of decimal digits, at least one. -/
def digits? (text : List Char) : Option Nat :=
  if text.isEmpty || !text.all Char.isDigit then none
  else some (text.foldl (fun n c => n * 10 + (c.toNat - 48)) 0)

/-- Reads a number below 256, with an optional plus sign. -/
def smallNumber? (text : List Char) : Option Nat :=
  (digits? (match text with
    | '+' :: digits => digits
    | digits => digits)).filter (· < 256)

/-- Reads a level; blanks around it do not matter. A number out of
range is shown as a number, any other text as it was given. -/
def read (text : String) : Except BadTraceLevel TraceLevel :=
  match smallNumber? (Text.trim text.toList) with
  | none => .error ⟨text⟩
  | some n =>
    match ofRank? n with
    | some level => .ok level
    | none => .error ⟨toString n⟩

def ofJson? (j : Json) : Option TraceLevel := do
  let (name, content) ← Json.choice? j
  if Json.isUnit content then [quiet, echo, types, listing].find? (·.name == name) else none

end TraceLevel

/-- What a session does; directives change it on the way. -/
structure Options where
  trace : TraceLevel := .quiet
  /-- Run each statement once it is compiled. -/
  execute : Bool := false
  /-- Stop at the first failure. -/
  stopOnError : Bool := false
  /-- Colour diagnostics. -/
  color : Bool := false
  deriving DecidableEq, Repr, Inhabited

namespace Options

/-- The exchange form. -/
def toJson (o : Options) : Json :=
  .object [("trace", .string o.trace.name), ("execute", .bool o.execute),
    ("stop_on_error", .bool o.stopOnError), ("color", .bool o.color)]

/-- A field that keeps its default when it is missing. -/
def orDefault {α : Type} (read : Json → Option α) (otherwise : α) : Option Json → Option α
  | none => some otherwise
  | some j => read j

/-- The fields of the exchange form, in order. -/
def fields? : Json → Option (List (Option Json))
  | .array items =>
    if items.length ≤ 4 then some (items.map some ++ List.replicate (4 - items.length) none) else none
  | j => Json.record? ["trace", "execute", "stop_on_error", "color"] j

/-- Reads the exchange form: an object, or an array of the first
fields in order. What is missing keeps its default. -/
def ofJson? (j : Json) : Option Options := do
  match ← fields? j with
  | [trace, execute, stop, color] =>
    return { trace := ← orDefault TraceLevel.ofJson? .quiet trace
             execute := ← orDefault Json.bool? false execute
             stopOnError := ← orDefault Json.bool? false stop
             color := ← orDefault Json.bool? false color }
  | _ => none

end Options

end RelQuery
