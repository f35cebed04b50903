/-
Data types, columns and headings.

A heading is a list of columns whose names are distinct. The order in
which columns were added is kept, because texts, code and the
expansion of field lists follow it, but it carries no meaning: see
`Type.Equality` for the equality that ignores it.

Placeholder types stand in the signatures of builtin operators only.
A type is concrete when no placeholder occurs in it.
-/
import RelQuery.Text.Blank

namespace RelQuery

mutual

/-- The types that the compiler can assign. -/
inductive DataType where
  | bool
  | number
  | text
  | binary
  | time
  | tuple (heading : List Column)
  | relation (heading : List Column)
  | user (type : UserType)
  /-- A compiled code segment passed as a value. -/
  | code
  /-- The type of statements that produce nothing. -/
  | void
  /-- Placeholder: the type of the first argument. -/
  | unknown
  /-- Placeholder: any relation. -/
  | table
  /-- Placeholder: any tuple. -/
  | row
  /-- Placeholder: number, text or time. -/
  | ordered
  /-- Placeholder: number or time. -/
  | ordinal
  /-- Placeholder: anything at all. -/
  | any

/-- A named type with components and, perhaps, a supertype. -/
structure UserType where
  name : String
  heading : List Column
  supertype : Option DataType

/-- A named, typed column. -/
structure Column where
  name : String
  type : DataType

end

deriving instance Repr, Inhabited for DataType
deriving instance Repr, Inhabited for UserType
deriving instance Repr, Inhabited for Column

/-- Columns with distinct names, in the order they were added. -/
abbrev Heading := List Column

namespace DataType

/-- The scalar type with the given source name. -/
def ofName? : String → Option DataType
  | "bool" => some .bool
  | "number" => some .number
  | "text" => some .text
  | "binary" => some .binary
  | "time" => some .time
  | _ => none

/-- Types whose values have an order. -/
def isOrdered : DataType → Bool
  | .number | .text | .time => true
  | _ => false

/-- Types whose values have a successor. -/
def isOrdinal : DataType → Bool
  | .number | .time => true
  | _ => false

/-- Types that only stand in signatures. -/
def isPlaceholder : DataType → Bool
  | .unknown | .table | .row | .ordered | .ordinal | .any => true
  | _ => false

def isRelation : DataType → Bool
  | .relation _ => true
  | _ => false

def isTuple : DataType → Bool
  | .tuple _ => true
  | _ => false

/-- The heading of a tuple, relation or user type. -/
def heading? : DataType → Option Heading
  | .tuple h => some h
  | .relation h => some h
  | .user u => some u.heading
  | _ => none

mutual

/-- Neither the type nor the type of a column inside it is a
placeholder. The supertype of a user type is not looked at. -/
def isConcrete : DataType → Bool
  | .tuple h => allConcrete h
  | .relation h => allConcrete h
  | .user ⟨_, h, _⟩ => allConcrete h
  | .unknown | .table | .row | .ordered | .ordinal | .any => false
  | _ => true

/-- Every column of the list has a concrete type. -/
def allConcrete : List Column → Bool
  | [] => true
  | ⟨_, t⟩ :: rest => t.isConcrete && allConcrete rest

end

mutual

/-- The written form. A user type shows its name only. -/
def write : DataType → String
  | .bool => "bool"
  | .number => "number"
  | .text => "text"
  | .binary => "binary"
  | .time => "time"
  | .tuple h => "tup\x7b" ++ String.intercalate "," (writeColumns h) ++ "\x7d"
  | .relation h => "rel\x7b" ++ String.intercalate "," (writeColumns h) ++ "\x7d"
  | .user ⟨name, _, _⟩ => name
  | .code => "code"
  | .void => "void"
  | .unknown => "?unknown"
  | .table => "?table"
  | .row => "?row"
  | .ordered => "?ordered"
  | .ordinal => "?ordinal"
  | .any => "?any"

/-- The written forms of a list of columns, `name:type` each. -/
def writeColumns : List Column → List String
  | [] => []
  | ⟨name, t⟩ :: rest => (name ++ ":" ++ t.write) :: writeColumns rest

end

end DataType

/-- The written form `name:type`. -/
def Column.write (c : Column) : String :=
  c.name ++ ":" ++ c.type.write

end RelQuery
