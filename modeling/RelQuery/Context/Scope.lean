/-
Scopes: which names are known, and which columns code reads.

A scope opened for a heading has one symbol for each column, so that
columns are found like any other name. Reading a column is recorded in
every scope with a heading, from the one that declares the column
inwards: what a scope has recorded is what the code compiled in it
reads of the enclosing row.
-/
import RelQuery.Call.Symbol
import RelQuery.Type.Heading

namespace RelQuery

/-- What a scope was opened for. -/
inductive ScopeKind where
  /-- The statement itself. -/
  | statement
  /-- The columns of a tuple or relation. -/
  | fields
  /-- The components of a user type. -/
  | components
  /-- The parameters of a function. -/
  | parameters
  /-- The bindings of a block. -/
  | block
  deriving DecidableEq, Repr, Inhabited

/-- The names of one level. -/
structure Scope where
  kind : ScopeKind
  /-- Symbols with distinct names, in the order they were added. -/
  symbols : List Symbol
  heading : Option Heading
  /-- Columns of the enclosing row that code in this scope reads. -/
  lookup : Heading
  level : Nat
  deriving Repr, Inhabited

namespace Scope

/-- A scope without names. -/
def bare (kind : ScopeKind) (level : Nat) : Scope :=
  { kind, symbols := [], heading := none, lookup := [], level }

/-- A scope with a symbol for each column of a heading. -/
def seeded (kind : ScopeKind) (level : Nat) (heading : Heading) (symbolKind : SymbolKind) : Scope :=
  { bare kind level with
    symbols := heading.map fun c => { name := c.name, kind := symbolKind, type := c.type, level }
    heading := some heading }

/-- The scope opened for a type. A tuple, relation or user type brings
its heading; anything else opens a plain block. -/
def ofType (type : Option DataType) (level : Nat) : Scope :=
  match type with
  | some (.tuple h) | some (.relation h) => seeded .fields level h .field
  | some (.user u) => seeded .components level u.heading .component
  | _ => bare .block level

/-- The symbol with the given name. -/
def get? (s : Scope) (name : String) : Option Symbol :=
  s.symbols.find? (·.name == name)

/-- Records a column declared at `level` as read, if the scope has a
heading and lies at that level or further in. -/
def record (column : Column) (level : Nat) (s : Scope) : Scope :=
  if level ≤ s.level && s.heading.isSome then { s with lookup := s.lookup.insertNew column } else s

end Scope

/-- A column that was read, with the level that declares it. -/
structure Read where
  column : Column
  level : Nat
  deriving Repr, Inhabited

/-- Why a scope operation fails. -/
inductive ScopeError where
  | duplicate (name : String)
  | underflow
  deriving DecidableEq, Repr

namespace ScopeError

def message : ScopeError → String
  | .duplicate name => s!"duplicate definition of '{name}'"
  | .underflow => "scope stack underflow"

def code : ScopeError → Code
  | .duplicate _ => Code.duplicateDefinition
  | .underflow => Code.stackUnderflow

end ScopeError

/-- The open scopes. -/
structure Scopes where
  /-- The innermost scope. -/
  current : Scope
  /-- The scopes around it, innermost first. -/
  outer : List Scope
  /-- The reads seen by each open tracker, innermost first. -/
  trackers : List (List Read)
  deriving Repr, Inhabited

namespace Scopes

/-- The level of the statement; builtins and the catalog lie below. -/
def statementLevel : Nat := 1

/-- Only the statement's scope, and nothing in it. -/
def fresh : Scopes :=
  ⟨.bare .statement statementLevel, [], []⟩

/-- The level of the innermost scope. -/
def level (s : Scopes) : Nat := s.current.level

/-- How many scopes are open above the statement's. -/
def depth (s : Scopes) : Nat := s.outer.length

/-- All open scopes, innermost first. -/
def all (s : Scopes) : List Scope := s.current :: s.outer

/-- Opens a scope. -/
def enter (s : Scopes) (scope : Scope) : Scopes :=
  { s with current := scope, outer := s.all }

/-- Opens the scope of a type. -/
def push (s : Scopes) (type : Option DataType) : Scopes :=
  s.enter (.ofType type (s.level + 1))

/-- Opens the scope of a function's parameters. -/
def pushParameters (s : Scopes) (params : Heading) : Scopes :=
  s.enter (.seeded .parameters (s.level + 1) params .parameter)

/-- Closes the innermost scope and gives it back. -/
def pop (s : Scopes) : Except ScopeError (Scope × Scopes) :=
  match s.outer with
  | [] => .error .underflow
  | parent :: rest => .ok (s.current, { s with current := parent, outer := rest })

/-- Adds a symbol to the innermost scope. -/
def add (s : Scopes) (symbol : Symbol) : Except ScopeError Scopes :=
  if (s.current.get? symbol.name).isSome then .error (.duplicate symbol.name)
  else
    .ok { s with current := { s.current with
      symbols := s.current.symbols ++ [symbol.atLevel s.level] } }

/-- The innermost symbol with the given name. -/
def find? (s : Scopes) (name : String) : Option Symbol :=
  s.all.findSome? (·.get? name)

/-- Adds a read to a tracker unless it has been seen there. -/
def track (read : Read) (seen : List Read) : List Read :=
  if seen.any fun r => r.column.name == read.column.name && r.level == read.level then seen
  else seen ++ [read]

/-- Records a read of a column declared at `level`. -/
def record (s : Scopes) (column : Column) (level : Nat) : Scopes :=
  { current := s.current.record column level
    outer := s.outer.map (·.record column level)
    trackers := s.trackers.map (track ⟨column, level⟩) }

/-- Finds a name and records what finding it reads. -/
def resolve (s : Scopes) (name : String) : Option Symbol × Scopes :=
  match s.find? name with
  | none => (none, s)
  | some symbol =>
    (some symbol,
      if symbol.kind.isLookup then s.record ⟨symbol.name, symbol.type⟩ symbol.level else s)

/-- Starts to collect reads; trackers nest, and a read is seen by all
of them. -/
def trackReads (s : Scopes) : Scopes :=
  { s with trackers := [] :: s.trackers }

/-- Ends the innermost tracker and gives what it saw. -/
def takeReads (s : Scopes) : List Read × Scopes :=
  match s.trackers with
  | [] => ([], s)
  | seen :: rest => (seen, { s with trackers := rest })

/-- The heading of the innermost scope that has one. -/
def heading? (s : Scopes) : Option Heading :=
  s.all.findSome? (·.heading)

end Scopes

end RelQuery
