/-
From the tree of a sentence to the typed tree of a statement.

The walk visits the sentence in source order, so that scopes open and
close around exactly the operands that they cover. Every fault leaves
it with the mark of the innermost construct that raised it.
-/
import RelQuery.Build.Call
import RelQuery.Build.Constructor
import RelQuery.Build.Field
import RelQuery.Build.Name
import RelQuery.Build.Statement
import RelQuery.Grammar.Grouping

namespace RelQuery

/-- Whether an expression ends in a field list. -/
def Expr.isFields : Expr → Bool
  | .fields .. => true
  | _ => false

namespace Build

/-- The column that a field's value renames, if it is a rename. -/
def renameSource? : Expr → Build (Option String)
  | .name _ source => do return if ← isRename source then some source else none
  | _ => return none

/-- The keys of an ordering. -/
def orderKeys : List OrderKey → Build (List Segment)
  | [] => return []
  | key :: rest => do
    let segment ← located key.mark (orderKey key.name key.descending key.grouped)
    return segment :: (← orderKeys rest)

/-- The heading of written columns. -/
def heading (catalog : Catalog) (columns : List (String × TypeExpr)) : Build Heading :=
  match headingOf catalog columns with
  | .ok h => pure h
  | .error f => throw f

/-- Joins the operands of an infix chain. A fault is marked at the
operator that raises it. -/
def joinChain (catalog : Catalog) (first : Node) (rest : List ((String × Nat) × Node)) :
    Build Node :=
  Grouping.climb (fun op => precedence op.1)
    (fun lhs op rhs => located op.2 (binary catalog op.1 lhs rhs)) first rest

mutual

/-- Builds an expression. `keepOpen` asks a field list to leave its
scope for the list that continues it. -/
def expression (catalog : Catalog) (keepOpen : Bool) : Expr → Build Node
  | .number _ value => return .literal (.number value)
  | .text _ value => return .literal (.text value)
  | .bool _ value => return .literal (.bool value)
  | .time _ value => return .literal (.time value)
  | .name mark name => located mark (useName catalog name)
  | .currentRow mark => located mark currentRow
  | .call mark name args => located mark do
    call catalog name (← expressions catalog args)
  | .fold mark op arg => located mark do
    fold op (← expression catalog false arg)
  | .chain mark first steps => located mark do
    let first ← expression catalog false first
    joinChain catalog first (← operands catalog steps)
  | .not mark arg => located mark do
    call catalog "not" [← expression catalog false arg]
  | .neg mark arg => located mark do
    negate catalog (← expression catalog false arg)
  | .member mark base name => located mark do
    member (← expression catalog false base) name
  | .restrict mark base predicate => located mark do
    let base ← expression catalog false base
    enterRestrict base
    restrict base (← expression catalog false predicate)
  | .fields mark base ⟨allBut, order, entries⟩ => located mark do
    let node ← expression catalog true base
    if base.isFields then chainFields node allBut else enterFields node allBut
    let keys ← orderKeys order
    let fields ← fieldEntries catalog entries
    finishFields node keys fields keepOpen
  | .row mark bindings => located mark do
    row (← bindingValues catalog bindings)
  | .table mark rows => located mark do
    table (← tableRows catalog rows)
  | .emptyTable mark columns => located mark do
    return .table (← heading catalog columns) []
  | .block mark bindings body => located mark do
    let first ← enterBlock
    blockBindings catalog bindings
    block first (← expression catalog false body)

/-- Builds expressions one after another. -/
def expressions (catalog : Catalog) : List Expr → Build (List Node)
  | [] => return []
  | e :: rest => do
    let node ← expression catalog false e
    return node :: (← expressions catalog rest)

/-- Builds the operands of an infix chain. -/
def operands (catalog : Catalog) : List Step → Build (List ((String × Nat) × Node))
  | [] => return []
  | ⟨op, mark, operand⟩ :: rest => do
    let node ← expression catalog false operand
    return ((op, mark), node) :: (← operands catalog rest)

/-- Builds the entries of a field list. -/
def fieldEntries (catalog : Catalog) : List FieldEntry → Build (List (FieldSpec Segment))
  | [] => return []
  | .plain name _ :: rest => return .project name :: (← fieldEntries catalog rest)
  | .computed name mark value :: rest => do
    let entry ← do
      match ← renameSource? value with
      | some source => pure (.rename source name)
      | none =>
        beginField
        let node ← expression catalog false value
        pure (.extend name (← located mark (endField name node)))
    return entry :: (← fieldEntries catalog rest)

/-- Builds named values. -/
def bindingValues (catalog : Catalog) : List Binding → Build (List (String × Node))
  | [] => return []
  | ⟨name, value⟩ :: rest => do
    let node ← expression catalog false value
    return (name, node) :: (← bindingValues catalog rest)

/-- Builds the rows of a table. -/
def tableRows (catalog : Catalog) : List (List Binding) → Build (List (List (String × Node)))
  | [] => return []
  | bindings :: rest => do
    let fields ← bindingValues catalog bindings
    return fields :: (← tableRows catalog rest)

/-- Builds and binds the values of a block. -/
def blockBindings (catalog : Catalog) : List Binding → Build Unit
  | [] => return
  | ⟨name, value⟩ :: rest => do
    beginLocal
    let node ← expression catalog false value
    located value.mark (bindLocal name node)
    blockBindings catalog rest

end

/-- Where a fault of a type definition is marked: an unknown supertype
at its name, all else at the definition. -/
def typeDefMark (mark : Nat) (supertype : Option (String × Nat)) (f : BuildFault) : Nat :=
  match supertype with
  | some (_, place) => if f.error.code = Code.undefinedType then place else mark
  | none => mark

/-- Builds a statement. -/
def statement (catalog : Catalog) : Sentence → Build Statement
  | .expression value => do return .expression (← expression catalog false value)
  | .assign mark name value => do
    let node ← expression catalog false value
    located mark (assign catalog name node)
  | .define mark name params returns body => do
    let params ← heading catalog params
    let returns ← match returns with
      | none => pure none
      | some t => match typeOf catalog t with
        | .ok type => pure (some type)
        | .error f => throw f
    located mark (enterDefine name params)
    let node ← expression catalog false body
    located mark (define name params returns node)
  | .typeDef mark name supertype components => do
    let components ← heading catalog components
    fun w =>
      match typeDef catalog name (supertype.map (·.1)) components w with
      | .ok s w => .ok s w
      | .error f w => .error (f.orAt (typeDefMark mark supertype f)) w

end Build

end RelQuery
