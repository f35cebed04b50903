/-
The form of types in data exchange.

A type without content is its name, any other an object with the name
as its only member. A heading is an object `columns` whose members
are the columns by name; when reading, a column given twice keeps its
place and takes its last content.
-/
import RelQuery.Text.Json
import RelQuery.Type.Heading

namespace RelQuery

namespace DataType

/-- A heading from the exchange forms of its columns. -/
def headingForm (columns : List (String × Json)) : Json :=
  .object [("columns", .object columns)]

mutual

/-- The exchange form. -/
def toJson : DataType → Json
  | .bool => .string "Bool"
  | .number => .string "Number"
  | .text => .string "Text"
  | .binary => .string "Binary"
  | .time => .string "Time"
  | .tuple h => .object [("Tuple", headingForm (columnForms h))]
  | .relation h => .object [("Relation", headingForm (columnForms h))]
  | .user ⟨name, h, s⟩ =>
    .object [("User", .object [("name", .string name), ("heading", headingForm (columnForms h)),
      ("supertype", superForm s)])]
  | .code => .string "Code"
  | .void => .string "Void"
  | .unknown => .string "Unknown"
  | .table => .string "Table"
  | .row => .string "Row"
  | .ordered => .string "Ordered"
  | .ordinal => .string "Ordinal"
  | .any => .string "Any"

/-- The exchange form of an optional supertype. -/
def superForm : Option DataType → Json
  | none => .null
  | some t => t.toJson

/-- Columns under their names. -/
def columnForms : List Column → List (String × Json)
  | [] => []
  | ⟨name, t⟩ :: rest =>
    (name, .object [("name", .string name), ("data_type", t.toJson)]) :: columnForms rest

end

/-- The type without content that has the given name. -/
def ofBareName? : String → Option DataType
  | "Bool" => some .bool
  | "Number" => some .number
  | "Text" => some .text
  | "Binary" => some .binary
  | "Time" => some .time
  | "Code" => some .code
  | "Void" => some .void
  | "Unknown" => some .unknown
  | "Table" => some .table
  | "Row" => some .row
  | "Ordered" => some .ordered
  | "Ordinal" => some .ordinal
  | "Any" => some .any
  | _ => none

/-- Puts a member in the place of an earlier one with its name, or at
the end. -/
def putMember {α : Type} (name : String) (a : α) : List (String × α) → List (String × α)
  | [] => [(name, a)]
  | (n, b) :: rest => if n == name then (n, a) :: rest else (n, b) :: putMember name a rest

/-- Reads a column. -/
def columnOf? (type : Json → Option DataType) (j : Json) : Option Column := do
  match ← Json.record? ["name", "data_type"] j with
  | [some name, some t] => return ⟨← name.string?, ← type t⟩
  | _ => none

/-- Reads the members of a heading, onto those already read. -/
def columnsOf? (type : Json → Option DataType) (seen : List (String × Column)) :
    List (String × Json) → Option (List (String × Column))
  | [] => some seen
  | (name, j) :: rest => do columnsOf? type (putMember name (← columnOf? type j) seen) rest

/-- Reads a heading. -/
def headingOf? (type : Json → Option DataType) (j : Json) : Option Heading := do
  match ← Json.record? ["columns"] j with
  | [some (.object members)] => return (← columnsOf? type [] members).map (·.2)
  | _ => none

/-- Reads a type with at most the given depth of nesting. -/
def ofJsonDepth? : Nat → Json → Option DataType
  | 0, _ => none
  | depth + 1, j => do
    match ← Json.choice? j with
    | ("Tuple", some h) => return .tuple (← headingOf? (ofJsonDepth? depth) h)
    | ("Relation", some h) => return .relation (← headingOf? (ofJsonDepth? depth) h)
    | ("User", some u) =>
      match ← Json.record? ["name", "heading", "supertype"] u with
      | [some name, some h, s] =>
        return .user ⟨← name.string?, ← headingOf? (ofJsonDepth? depth) h,
          ← Json.nullable? (ofJsonDepth? depth) s⟩
      | _ => none
    | (name, content) => if Json.isUnit content then ofBareName? name else none

/-- Reads the exchange form; nothing read from a text nests deeper than
this. -/
def ofJson? (j : Json) : Option DataType :=
  ofJsonDepth? 128 j

end DataType

namespace Heading

/-- The exchange form. -/
def toJson (h : Heading) : Json :=
  DataType.headingForm (DataType.columnForms h)

/-- Reads the exchange form. -/
def ofJson? (j : Json) : Option Heading :=
  DataType.headingOf? DataType.ofJson? j

end Heading

end RelQuery
