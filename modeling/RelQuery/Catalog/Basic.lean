/-
The catalog: what outlives a statement.

Entries keep the order in which their names were first added. A
variable may be bound again, a function may get further overloads, a
user type is defined once; a name never changes what it is.
-/
import RelQuery.Node.Statement

namespace RelQuery

/-- Why the catalog refuses. -/
inductive CatalogError where
  | overload (e : OverloadError)
  | kindConflict (name : String) (kind : SymbolKind)
  | loadFailed (reason : String)
  deriving Repr

namespace CatalogError

def message : CatalogError → String
  | .overload e => e.message
  | .kindConflict name kind => s!"'{name}' is already defined as a " ++ kind.write
  | .loadFailed reason => s!"catalog load failed: {reason}"

def code : CatalogError → Code
  | .overload e => e.code
  | .kindConflict .. => Code.duplicateDefinition
  | .loadFailed _ => Code.loadFailed

/-- The store failed, as opposed to a definition that is refused. -/
def isSystem : CatalogError → Bool
  | .loadFailed _ => true
  | _ => false

end CatalogError

/-- The entries, and those last saved. -/
structure Catalog where
  /-- Symbols with distinct names. -/
  entries : List Symbol := []
  saved : Option (List Symbol) := none
  deriving Repr, Inhabited

namespace Catalog

/-- The entry with the given name. -/
def find? (c : Catalog) (name : String) : Option Symbol :=
  c.entries.find? (·.name == name)

/-- Puts a symbol in the place of the one with its name, or at the
end. -/
def put (symbol : Symbol) : List Symbol → List Symbol
  | [] => [symbol]
  | s :: rest => if s.name == symbol.name then symbol :: rest else s :: put symbol rest

/-- Adds or replaces an entry. -/
def insert (c : Catalog) (symbol : Symbol) : Catalog :=
  { c with entries := put (symbol.atLevel 0) c.entries }

/-- Binds a variable, for the first time or again. -/
def addVariable (c : Catalog) (name : String) (type : DataType) : Except CatalogError Catalog :=
  match c.find? name with
  | some existing =>
    if existing.kind = .catalog then .ok (c.insert (binding name type))
    else .error (.kindConflict name existing.kind)
  | none => .ok (c.insert (binding name type))
where
  binding (name : String) (type : DataType) : Symbol :=
    { name, kind := .catalog, type, isMutable := true }

/-- Adds a function with one definition. -/
def addFunction (c : Catalog) (call : Signature) : Catalog :=
  c.insert (.callable call.name .deferred [call])

/-- Adds a definition to a function, which may be new. -/
def addOverload (c : Catalog) (call : Signature) : Except CatalogError Catalog :=
  match c.find? call.name with
  | none => .ok (c.addFunction call)
  | some symbol =>
    if symbol.kind = .deferred then
      match Overloads.add symbol.links call with
      | .ok chain => .ok (c.insert { symbol with calls := some chain })
      | .error e => .error (.overload e)
    else .error (.kindConflict symbol.name symbol.kind)

/-- Adds a user type. -/
def addUserType (c : Catalog) (user : UserType) : Except CatalogError Catalog :=
  match c.find? user.name with
  | some existing => .error (.kindConflict existing.name existing.kind)
  | none => .ok (c.insert { name := user.name, kind := .userType, type := .user user })

/-- Records what a compiled statement defines. -/
def register (c : Catalog) : Statement → Except CatalogError Catalog
  | .expression _ => .ok c
  | .assign name value => c.addVariable name value.dataType
  | .define _ call _ => c.addOverload call
  | .typeDef user => c.addUserType user

/-- Goes back to the saved entries and tells how many there are. -/
def load (c : Catalog) : Except CatalogError (Nat × Catalog) :=
  match c.saved with
  | some entries => .ok (entries.length, { c with entries })
  | none => .error (.loadFailed "no saved catalog")

/-- Saves the entries and tells how many there are. -/
def save (c : Catalog) : Nat × Catalog :=
  (c.entries.length, { c with saved := some c.entries })

end Catalog

end RelQuery
