/-
Operations on headings.

A column is added at the end or not at all, so that names stay
distinct. `union` joins two headings whose shared names agree on
types, `compose` keeps the names of one side only.
-/
import RelQuery.Type.Equality

namespace RelQuery

/-- Why a heading could not be made. -/
inductive HeadingError where
  | duplicateColumn (name : String)
  | unknownColumn (name : String)
  deriving DecidableEq, Repr

namespace HeadingError

/-- The column that the error speaks of. -/
def column : HeadingError → String
  | .duplicateColumn name => name
  | .unknownColumn name => name

def message : HeadingError → String
  | .duplicateColumn name => s!"duplicate column '{name}'"
  | .unknownColumn name => s!"unknown column '{name}'"

end HeadingError

namespace Heading

/-- The column with the given name. -/
def get? (h : Heading) (name : String) : Option Column :=
  h.find? (·.name == name)

/-- Whether there is a column with the given name. -/
def has (h : Heading) (name : String) : Bool :=
  h.any (·.name == name)

/-- The names of the columns, in order. -/
def names (h : Heading) : List String :=
  h.map (·.name)

/-- Adds a column at the end unless its name is taken. -/
def push (h : Heading) (c : Column) : Except HeadingError Heading :=
  if h.has c.name then .error (.duplicateColumn c.name) else .ok (h ++ [c])

/-- Adds a column at the end; a taken name leaves the heading as it
is. -/
def insertNew (h : Heading) (c : Column) : Heading :=
  if h.has c.name then h else h ++ [c]

/-- Adds columns one after another. -/
def pushAll (h : Heading) : List Column → Except HeadingError Heading
  | [] => .ok h
  | c :: rest => do pushAll (← push h c) rest

/-- The heading with exactly the given columns. -/
def ofColumns (columns : List Column) : Except HeadingError Heading :=
  pushAll [] columns

/-- Adds the columns of another heading; a shared name must have an
equal type on both sides. -/
def union (h : Heading) : List Column → Except HeadingError Heading
  | [] => .ok h
  | c :: rest =>
    match h.get? c.name with
    | some d => if d.type.same c.type then union h rest else .error (.duplicateColumn c.name)
    | none => union (h ++ [c]) rest

/-- The columns of one side only; shared names must agree. -/
def compose (h k : Heading) : Except HeadingError Heading := do
  let joined ← union h k
  return joined.filter fun c => !(h.has c.name && k.has c.name)

/-- The named columns, in the order of the names; `out` has those
already taken. -/
def projectOnto (h out : Heading) : List String → Except HeadingError Heading
  | [] => .ok out
  | name :: rest =>
    match h.get? name with
    | none => .error (.unknownColumn name)
    | some c => do projectOnto h (← push out c) rest

/-- The named columns, in the order of the names. -/
def project (h : Heading) (names : List String) : Except HeadingError Heading :=
  projectOnto h [] names

/-- The written form. -/
def write (h : Heading) : String :=
  "\x7b" ++ String.intercalate "," (h.map Column.write) ++ "\x7d"

end Heading

end RelQuery
