/-
What can go wrong while a typed tree is built.

Every cause has its code and message here. A cause that only a defect
of the compiler can bring about is internal; all others are mistakes
of the program being compiled.
-/
import RelQuery.Catalog.Basic
import RelQuery.Context.Basic
import RelQuery.Diagnostic.Failure
import RelQuery.Node.FieldList

namespace RelQuery

/-- Why a tree cannot be built. -/
inductive BuildError where
  -- names
  | undefinedName (name : String)
  | notValue (name : String) (kind : SymbolKind)
  | operatorNotValue (name : String)
  | missingSlot (name : String) (slot : Nat)
  | noCurrentRow
  -- calls
  | type (e : TypeError)
  | undefinedFunction (name : String)
  | noComponentList (name : String)
  | foldWithoutOperator
  | componentMismatch (column user : String) (declared found : DataType)
  | notInfix (op : String)
  | notFoldable (op : String)
  -- members, restrictions and field lists
  | noMembers (type : DataType) (name : String)
  | unknownMember (name : String) (type : DataType)
  | restrictedType (found : DataType)
  | predicateType (found : DataType)
  | fieldListType (found : DataType)
  | noFieldList
  | unknownOrderColumn (name : String)
  | allBut (e : AllButError)
  -- constructors and contexts
  | heading (e : HeadingError)
  | rowsDiffer (first other : Heading)
  | context (e : ContextError)
  -- statements
  | undefinedType (name : String)
  | assignToOperator (name : String)
  | assignType (name : String) (declared found : DataType)
  | catalog (e : CatalogError)
  | redefinesBuiltin (name : String)
  | bodyType (name : String) (found declared : DataType)
  | alreadyDefined (name : String)
  | duplicateComponent (column user : String)
  deriving Repr

namespace BuildError

def message : BuildError → String
  | .undefinedName name => s!"undefined identifier '{name}'"
  | .notValue name kind => s!"'{name}' is a " ++ kind.write ++ ", not a value"
  | .operatorNotValue name => s!"'{name}' is an operator, not a value"
  | .missingSlot name slot => s!"local '{name}' has no slot {slot}"
  | .noCurrentRow => "'@' used outside of a row context"
  | .type e => e.message
  | .undefinedFunction name => s!"undefined function '{name}'"
  | .noComponentList name => s!"type '{name}' has no components"
  | .foldWithoutOperator => "'fold' takes an operator: fold(op, expr)"
  | .componentMismatch column user declared found =>
    s!"component '{column}' of '{user}' is " ++ declared.write ++ ", found " ++ found.write
  | .notInfix op => s!"'{op}' is not an infix operator"
  | .notFoldable op => s!"'{op}' cannot be folded"
  | .noMembers found name => found.write ++ s!" has no components, cannot read '{name}'"
  | .unknownMember name found => s!"unknown column '{name}' in " ++ found.write
  | .restrictedType found => "'where' needs a relation, found " ++ found.write
  | .predicateType found => "'where' predicate must be bool, found " ++ found.write
  | .fieldListType found => "field list needs a tuple or relation, found " ++ found.write
  | .noFieldList => "no open field list"
  | .unknownOrderColumn name => s!"unknown ordering column '{name}'"
  | .allBut e => e.message
  | .heading e => e.message
  | .rowsDiffer first other => "table rows differ: " ++ Heading.write first ++ " vs " ++ Heading.write other
  | .context e => e.message
  | .undefinedType name => s!"undefined type '{name}'"
  | .assignToOperator name => s!"cannot assign to operator '{name}'"
  | .assignType name declared found =>
    s!"'{name}' is " ++ declared.write ++ ", cannot assign " ++ found.write
  | .catalog e => e.message
  | .redefinesBuiltin name => s!"cannot redefine builtin '{name}'"
  | .bodyType name found declared =>
    s!"body of '{name}' is " ++ found.write ++ ", declared " ++ declared.write
  | .alreadyDefined name => s!"'{name}' is already defined"
  | .duplicateComponent column user => s!"duplicate component '{column}' in '{user}'"

def code : BuildError → Code
  | .undefinedName _ | .noCurrentRow | .undefinedFunction _ => Code.undefinedName
  | .notValue .. | .operatorNotValue _ => Code.notCallable
  | .missingSlot .. | .noComponentList _ | .notInfix _ | .noFieldList => Code.defect
  | .type e => e.code
  | .foldWithoutOperator => Code.argumentCount
  | .componentMismatch .. | .notFoldable _ | .noMembers .. | .restrictedType _
  | .predicateType _ | .fieldListType _ | .bodyType .. => Code.typeMismatch
  | .unknownMember .. | .unknownOrderColumn _ => Code.unknownColumn
  | .allBut e => e.code
  | .heading (.duplicateColumn _) => Code.duplicateColumn
  | .heading (.unknownColumn _) => Code.unknownColumn
  | .rowsDiffer .. => Code.headingMismatch
  | .context e => e.code
  | .undefinedType _ => Code.undefinedType
  | .assignToOperator _ | .assignType .. => Code.badAssignment
  | .catalog e => e.code
  | .redefinesBuiltin _ | .alreadyDefined _ => Code.duplicateDefinition
  | .duplicateComponent .. => Code.duplicateColumn

/-- A defect of the compiler, the store, or the program at hand. -/
def kind : BuildError → FailureKind
  | .missingSlot .. | .noComponentList _ | .notInfix _ | .noFieldList => .internal
  | .type e => if e.isInternal then .internal else .semantic
  | .context e => if e.isInternal then .internal else .semantic
  | .catalog e => if e.isSystem then .system else .semantic
  | _ => .semantic

end BuildError

/-- A cause with the mark of the innermost construct that raised it,
as a byte offset in the statement. -/
structure BuildFault where
  error : BuildError
  mark : Option Nat := none
  deriving Repr

namespace BuildFault

/-- Marks a fault that has no mark yet. -/
def orAt (mark : Nat) (f : BuildFault) : BuildFault :=
  { f with mark := f.mark.orElse fun _ => some mark }

/-- The fault as a failure; `locate` finds a mark in the whole text. -/
def failure (locate : Nat → Location) (f : BuildFault) : Failure :=
  .single f.error.kind f.error.code f.error.message (f.mark.map locate)

end BuildFault

end RelQuery
