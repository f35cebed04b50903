/-
Names, block bindings and the current row.

A name is looked for in the scopes, then in the catalog, then among
the builtins. A use of a block binding gets a copy of the bound value:
the columns that the value reads are recorded again where it is used,
and its folds get slots of their own there.
-/
import RelQuery.Build.Basic

namespace RelQuery.Build

mutual

/-- Gives the folds of a copied value new slots. Segments have
counters of their own and stay as they are. -/
def relocate : Node → Build Node
  | .inlined name value => do return .inlined name (← relocate value)
  | .block bindings body => do return .block bindings (← relocate body)
  | .call call args type slot => do
    let args ← relocateAll args
    if call.windowed then markWindow call.name
    let slot ← if slot.isSome then allocateFor call else pure none
    return .call call args type slot
  | .function call args type slot => do
    let args ← relocateAll args
    let slot ← if slot.isSome then allocateFor call else pure none
    return .function call args type slot
  | .fold op _ arg type => do
    let arg ← relocate arg
    return .fold op (← allocate "fold" 1) arg type
  | .variadic call args type => do return .variadic call (← relocateAll args) type
  | .row heading values => do return .row heading (← relocateAll values)
  | .table heading rows => do return .table heading (← relocateAll rows)
  | .selector user args => do return .selector user (← relocateAll args)
  | .project base heading type => do return .project (← relocate base) heading type
  | .rename base pairs type => do return .rename (← relocate base) pairs type
  | .transform base kind order fields accums type => do
    return .transform (← relocate base) kind order fields accums type
  | .restrict base predicate => do return .restrict (← relocate base) predicate
  | .order base keys => do return .order (← relocate base) keys
  | .component base name type => do return .component (← relocate base) name type
  | .tupleField base name type => do return .tupleField (← relocate base) name type
  | .literal value => return .literal value
  | .variable name source type => return .variable name source type
  | .currentRow type => return .currentRow type
  | .code segment => return .code segment

/-- Gives the folds of copied values new slots. -/
def relocateAll : List Node → Build (List Node)
  | [] => return []
  | node :: rest => do
    let node ← relocate node
    return node :: (← relocateAll rest)

end

/-- A use of the block binding in a slot. -/
def useLocal (name : String) (slot : Nat) : Build Node := do
  match (← get).locals[slot]? with
  | none => fail (.missingSlot name slot)
  | some bound =>
    onScopes fun s => ((), bound.reads.foldl (fun s r => s.record r.column r.level) s)
    return .inlined name (← relocate bound.value)

/-- A use of a symbol found in scope. -/
def useSymbol (symbol : Symbol) : Build Node :=
  match symbol.kind with
  | .field => pure (.variable symbol.name .field symbol.type)
  | .parameter => pure (.variable symbol.name .parameter symbol.type)
  | .component => pure (.variable symbol.name .component symbol.type)
  | .catalog => pure (.variable symbol.name .catalog symbol.type)
  | .bound slot => useLocal symbol.name slot
  | kind => fail (.notValue symbol.name kind)

/-- A use of a name that no scope knows. -/
def useGlobal (catalog : Catalog) (name : String) : Build Node :=
  match catalog.find? name with
  | some symbol =>
    match symbol.kind with
    | .catalog => pure (.variable name .catalog symbol.type)
    | .deferred => pure (.variable name .reference .code)
    | kind => fail (.notValue name kind)
  | none =>
    if (Builtin.find? name).isSome then fail (.operatorNotValue name)
    else fail (.undefinedName name)

/-- A bare name used as a value. -/
def useName (catalog : Catalog) (name : String) : Build Node := do
  match ← resolve name with
  | some symbol => useSymbol symbol
  | none => useGlobal catalog name

/-- The row being looked at; it counts as a read of every column. -/
def currentRow : Build Node := do
  match (← get).context.scopes.heading? with
  | none => fail .noCurrentRow
  | some heading =>
    for name in heading.names do
      discard (resolve name)
    return .currentRow (.tuple heading)

end RelQuery.Build
