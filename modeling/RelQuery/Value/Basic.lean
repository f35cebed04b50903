/-
Literal values, their types and their written form.

The written form of a boolean, number, text, tuple or relation is an
expression of the language that reads back as the same literal or
constructor.
-/
import RelQuery.Number.Decimal
import RelQuery.Time.Moment
import RelQuery.Type.Heading

namespace RelQuery

/-- A literal value. -/
inductive Value where
  | void
  | bool (b : Bool)
  | number (d : Decimal)
  | text (s : String)
  | binary (bytes : List UInt8)
  | time (m : Moment)
  /-- Named component values. -/
  | tuple (fields : List (String × Value))
  /-- Rows with one cell per column, in heading order. -/
  | relation (heading : Heading) (rows : List (List Value))
  /-- A bare heading, used as an operand of constructors. -/
  | heading (h : Heading)
  deriving Repr, Inhabited

namespace Value

mutual

/-- The type of a value. A name given twice counts once. -/
def dataType : Value → DataType
  | .void => .void
  | .bool _ => .bool
  | .number _ => .number
  | .text _ => .text
  | .binary _ => .binary
  | .time _ => .time
  | .tuple fields => .tuple (fieldHeading [] fields)
  | .relation h _ => .relation h
  | .heading _ => .any

/-- The heading of named values, added to one already made. -/
def fieldHeading (h : Heading) : List (String × Value) → Heading
  | [] => h
  | (name, v) :: rest => fieldHeading (Heading.insertNew h ⟨name, v.dataType⟩) rest

end

-- ========================================================== writing

/-- The characters of a text with every quote written twice. -/
def quoteChars : List Char → List Char
  | [] => []
  | '\'' :: rest => '\'' :: '\'' :: quoteChars rest
  | c :: rest => c :: quoteChars rest

/-- A text in quotes. -/
def quote (s : String) : String :=
  "'" ++ String.ofList (quoteChars s.toList) ++ "'"

/-- Items between braces, separated by a comma and a space. -/
def braces (items : List String) : String :=
  "\x7b" ++ String.intercalate ", " items ++ "\x7d"

mutual

/-- The written form. -/
def write : Value → String
  | .void => "void"
  | .bool b => if b then "true" else "false"
  | .number d => d.normalize.write
  | .text s => quote s
  | .binary bytes => "0x" ++ Text.hex bytes
  | .time m => "t'" ++ m.write ++ "'"
  | .tuple fields => braces (writeFields fields)
  | .relation h rows => braces (writeRows h rows)
  | .heading h => Heading.write h

/-- Named values, `name := value` each. -/
def writeFields : List (String × Value) → List String
  | [] => []
  | (name, v) :: rest => (name ++ " := " ++ v.write) :: writeFields rest

/-- The rows of a relation. -/
def writeRows (h : Heading) : List (List Value) → List String
  | [] => []
  | row :: rest => braces (writeCells h row) :: writeRows h rest

/-- The cells of a row under the names of the columns. What has no
counterpart on the other side is left out. -/
def writeCells : List Column → List Value → List String
  | c :: h, v :: row => (c.name ++ " := " ++ v.write) :: writeCells h row
  | _, _ => []

end

end Value

end RelQuery
