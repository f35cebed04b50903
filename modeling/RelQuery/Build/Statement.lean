/-
Types and statements.

What a statement defines is only checked here; it enters the catalog
when the statement has been compiled.
-/
import RelQuery.Build.Basic
import RelQuery.Grammar.Tree

namespace RelQuery.Build

/-- A scalar or user type by name. -/
def namedType (catalog : Catalog) (name : String) : Except BuildError DataType :=
  match DataType.ofName? name with
  | some scalar => .ok scalar
  | none =>
    match catalog.find? name with
    | some symbol => if symbol.kind = .userType then .ok symbol.type else .error (.undefinedType name)
    | none => .error (.undefinedType name)

/-- A heading from its columns. -/
def makeHeading (columns : List Column) : Except BuildFault Heading :=
  (Heading.ofColumns columns).mapError fun e => ⟨.heading e, none⟩

mutual

/-- The meaning of a written type. -/
def typeOf (catalog : Catalog) : TypeExpr → Except BuildFault DataType
  | .named name mark => (namedType catalog name).mapError fun e => ⟨e, some mark⟩
  | .tuple columns => do return .tuple (← makeHeading (← columnsOf catalog columns))
  | .relation columns => do return .relation (← makeHeading (← columnsOf catalog columns))

/-- The meaning of written columns. -/
def columnsOf (catalog : Catalog) : List (String × TypeExpr) → Except BuildFault (List Column)
  | [] => .ok []
  | (name, t) :: rest => do
    let type ← typeOf catalog t
    return ⟨name, type⟩ :: (← columnsOf catalog rest)

end

/-- The heading of written columns. -/
def headingOf (catalog : Catalog) (columns : List (String × TypeExpr)) :
    Except BuildFault Heading := do
  makeHeading (← columnsOf catalog columns)

-- ======================================================= statements

/-- An assignment to a catalog variable, which keeps its type. -/
def assign (catalog : Catalog) (name : String) (value : Node) : Build Statement :=
  if (Builtin.find? name).isSome then fail (.assignToOperator name)
  else
    match catalog.find? name with
    | none => pure (.assign name value)
    | some existing =>
      if existing.kind = .catalog then
        if existing.type.same value.dataType then pure (.assign name value)
        else fail (.assignType name existing.type value.dataType)
      else fail (.catalog (.kindConflict existing.name existing.kind))

/-- Opens the scope of a function's parameters. -/
def enterDefine (name : String) (params : Heading) : Build Unit :=
  if (Builtin.find? name).isSome then fail (.redefinesBuiltin name)
  else onContext (·.pushParameters params)

/-- Closes the scope of a function's parameters. -/
def define (name : String) (params : Heading) (returns : Option DataType) (body : Node) :
    Build Statement := do
  let captured ← leave
  let counter := captured.counter.getD {}
  match returns.filter fun declared => !declared.accepts body.dataType with
  | some declared => fail (.bodyType name body.dataType declared)
  | none =>
    let call : Signature :=
      { name, returns := returns.getD body.dataType, args := params, variadic := none
        accums := counter.total, windowed := counter.hasWindow, kind := .deferred }
    return .define name call
      (.make name body captured.scope.lookup counter.total counter.hasWindow)

/-- The components that a type inherits, with its supertype. -/
def inherited (catalog : Catalog) : Option String → Except BuildError (Heading × Option DataType)
  | none => .ok ([], none)
  | some parent =>
    match catalog.find? parent with
    | some symbol =>
      if symbol.kind = .userType then .ok (symbol.type.heading?.getD [], some symbol.type)
      else .error (.undefinedType parent)
    | none => .error (.undefinedType parent)

/-- Adds the components of a type to those it inherits. -/
def addComponents (name : String) (heading : Heading) : List Column → Except BuildError Heading
  | [] => .ok heading
  | column :: rest => do
    let heading ← (heading.push column).mapError fun _ => .duplicateComponent column.name name
    addComponents name heading rest

/-- A type definition. A subtype begins with its supertype's
components. -/
def typeDef (catalog : Catalog) (name : String) (supertype : Option String) (components : Heading) :
    Build Statement :=
  if (DataType.ofName? name).isSome || (Builtin.find? name).isSome then fail (.alreadyDefined name)
  else do
    let (heading, parent) ← ofExcept id (inherited catalog supertype)
    let heading ← ofExcept id (addComponents name heading components)
    return .typeDef ⟨name, heading, parent⟩

end RelQuery.Build
