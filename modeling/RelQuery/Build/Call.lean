/-
Calls: builtins, user functions, selectors of user types, operators
and folds.
-/
import RelQuery.Build.Basic

namespace RelQuery.Build

/-- A resolved builtin call. -/
def callBuiltin (call : Signature) (args : List Node) (type : DataType) : Build Node :=
  match call.kind with
  | .fold => fail .foldWithoutOperator
  | .variadic | .variadicTable => pure (.variadic call args type)
  | .fixed | .deferred => do
    if call.windowed then markWindow call.name
    return .call call args type (← allocateFor call)

/-- The first component whose type does not accept its argument. -/
def mismatch? : Heading → List Node → Option (Column × DataType)
  | column :: columns, arg :: args =>
    if column.type.accepts arg.dataType then mismatch? columns args else some (column, arg.dataType)
  | _, _ => none

/-- A value of a user type, with one argument for each component. -/
def select (user : UserType) (args : List Node) : Build Node :=
  if args.length ≠ user.heading.length then
    fail (.type (.argumentCount user.name user.heading.length args.length))
  else
    match mismatch? user.heading args with
    | some (column, found) => fail (.componentMismatch column.name user.name column.type found)
    | none => pure (.selector user args)

/-- A call of a catalog entry. -/
def callEntry (symbol : Symbol) (name : String) (args : List Node) : Build Node :=
  match symbol.kind with
  | .deferred => do
    let resolved ← ofExcept .type (symbol.resolve (args.map Node.dataType))
    return .function resolved.call args resolved.type (← allocateFor resolved.call)
  | .userType =>
    match symbol.type with
    | .user user => select user args
    | _ => fail (.noComponentList name)
  | _ => fail (.type (.notCallable name))

/-- A call by name. Builtins come first, then the catalog. -/
def call (catalog : Catalog) (name : String) (args : List Node) : Build Node := do
  match Builtin.find? name with
  | some builtin =>
    let resolved ← ofExcept .type (builtin.resolve (args.map Node.dataType))
    callBuiltin resolved.call args resolved.type
  | none =>
    match catalog.find? name with
    | some symbol => callEntry symbol name args
    | none =>
      if ((← get).context.scopes.find? name).isSome then fail (.type (.notCallable name))
      else fail (.undefinedFunction name)

/-- Unary minus; a literal is negated at once. -/
def negate (catalog : Catalog) : Node → Build Node
  | .literal (.number d) => pure (.literal (.number d.neg))
  | arg => call catalog "neg" [arg]

/-- An infix operator with its operands. -/
def binary (catalog : Catalog) (op : String) (lhs rhs : Node) : Build Node :=
  if (Builtin.precedence? op).isNone then fail (.notInfix op)
  else call catalog op [lhs, rhs]

/-- How tightly an operator binds; zero for a name that is none. -/
def precedence (op : String) : Nat :=
  (Builtin.precedence? op).getD 0

/-- An infix operator folded over the enclosing group. -/
def fold (op : String) (arg : Node) : Build Node :=
  match (Builtin.find? op).filter (·.foldable) with
  | none => fail (.notFoldable op)
  | some symbol => do
    let resolved ← ofExcept .type (symbol.resolve [arg.dataType, arg.dataType])
    return .fold op (← allocate "fold" 1) arg resolved.type

/-- A member of a tuple or user type value. -/
def member (base : Node) (name : String) : Build Node :=
  match base.dataType with
  | .tuple heading =>
    match Heading.get? heading name with
    | some column => pure (.tupleField base name column.type)
    | none => fail (.unknownMember name (.tuple heading))
  | .user user =>
    match Heading.get? user.heading name with
    | some column => pure (.component base name column.type)
    | none => fail (.unknownMember name (.user user))
  | other => fail (.noMembers other name)

end RelQuery.Build
