/-
Symbols: what a name stands for, in a scope or in the catalog.
-/
import RelQuery.Call.Signature

namespace RelQuery

/-- What a symbol is. -/
inductive SymbolKind where
  /-- Variable held by the catalog. -/
  | catalog
  /-- Parameter of the function being defined. -/
  | parameter
  /-- Column of the heading in scope. -/
  | field
  /-- Component of a user type in scope. -/
  | component
  /-- Binding of a block; the slot finds the bound tree. -/
  | bound (slot : Nat)
  /-- Builtin operator or function. -/
  | operator
  /-- User-defined function. -/
  | deferred
  | userType
  deriving DecidableEq, Repr, Inhabited

namespace SymbolKind

/-- Kinds whose value comes from the current row. -/
def isLookup : SymbolKind → Bool
  | .field | .parameter | .component => true
  | _ => false

/-- Kinds that can be called. -/
def isCallable : SymbolKind → Bool
  | .operator | .deferred | .userType => true
  | _ => false

/-- The written form. -/
def write : SymbolKind → String
  | .catalog => "catalog variable"
  | .parameter => "parameter"
  | .field => "field"
  | .component => "component"
  | .bound _ => "local"
  | .operator => "operator"
  | .deferred => "function"
  | .userType => "type"

end SymbolKind

/-- A named thing with its type and, for callables, its overloads. -/
structure Symbol where
  name : String
  kind : SymbolKind
  type : DataType
  calls : Option Overloads := none
  /-- The level of the scope that declares it. -/
  level : Nat := 0
  isMutable : Bool := false
  /-- How a relational operator merges headings. -/
  merge : Option Merge := none
  /-- Whether it may be folded over a group. -/
  foldable : Bool := false
  /-- Infix precedence; zero for all else. -/
  precedence : Nat := 0
  deriving Repr, Inhabited

namespace Symbol

/-- A callable symbol; its type is the first link's return type. -/
def callable (name : String) (kind : SymbolKind) (chain : Overloads) : Symbol :=
  { name, kind
    type := match chain with
      | first :: _ => first.returns
      | [] => .void
    calls := some chain }

def atLevel (s : Symbol) (level : Nat) : Symbol :=
  { s with level }

def isInfix (s : Symbol) : Bool :=
  0 < s.precedence

def isComparison (s : Symbol) : Bool :=
  s.merge == some .compare

/-- The overloads; none for what cannot be called. -/
def links (s : Symbol) : List Signature :=
  s.calls.getD []

end Symbol

end RelQuery
