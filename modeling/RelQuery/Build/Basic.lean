/-
Building: the state that grows along a statement, and how steps run.

A step that fails keeps what it changed up to then. Whoever goes on
after a failure decides what to do about it.
-/
import RelQuery.Build.Fault
import RelQuery.Call.Builtin

namespace RelQuery

/-- A bound value and the columns around its block that it reads. -/
structure LocalSlot where
  name : String
  value : Node
  reads : List Read
  deriving Repr, Inhabited

/-- An open field list. -/
structure FieldFrame where
  base : DataType
  allBut : Bool
  deriving Repr, Inhabited

/-- The state of a statement being built. -/
structure Workspace where
  context : Context
  /-- Block bindings; a symbol's slot is a position here. -/
  locals : List LocalSlot := []
  /-- Counters set aside while bound values are built, innermost
  first. -/
  pending : List Counter := []
  /-- Open field lists, innermost first. -/
  frames : List FieldFrame := []
  deriving Repr, Inhabited

/-- A step of building. -/
abbrev Build := EStateM BuildFault Workspace

namespace Build

variable {α : Type}

/-- Fails with a cause. -/
def fail (e : BuildError) : Build α :=
  throw ⟨e, none⟩

/-- A result that may be a failure. -/
def ofExcept {ε : Type} (wrap : ε → BuildError) : Except ε α → Build α
  | .ok a => pure a
  | .error e => fail (wrap e)

/-- Marks what the step raises, unless it is marked already. -/
def located (mark : Nat) (step : Build α) : Build α := fun w =>
  match step w with
  | .ok a w => .ok a w
  | .error f w => .error (f.orAt mark) w

/-- Changes the context. -/
def onContext (f : Context → Context) : Build Unit :=
  modify fun w => { w with context := f w.context }

/-- Changes the scopes. -/
def onScopes (f : Scopes → α × Scopes) : Build α :=
  modifyGet fun w =>
    let (a, scopes) := f w.context.scopes
    (a, { w with context := { w.context with scopes } })

/-- Changes the counters. -/
def onCounters (f : Counters → Counters) : Build Unit :=
  onContext fun c => { c with counters := f c.counters }

/-- A context operation that may fail. -/
def ofContext (f : Context → Except ContextError α × Context) : Build α := do
  let result ← modifyGet fun w =>
    let (result, context) := f w.context
    (result, { w with context })
  ofExcept .context result

/-- The counter in force. -/
def counter : Build Counter := do
  return (← get).context.counters.current

/-- Finds a name in scope and records what finding it reads. -/
def resolve (name : String) : Build (Option Symbol) :=
  onScopes (·.resolve name)

/-- Closes the innermost level. -/
def leave : Build Captured :=
  ofContext Context.pop

/-- Hands out accumulator slots. -/
def allocate (name : String) (n : Nat) : Build Nat := do
  let (slot, counters) ← ofExcept (fun e => .context (.counter e))
    ((← get).context.counters.allocate name n)
  onCounters fun _ => counters
  return slot

/-- Notes a windowed operator. -/
def markWindow (name : String) : Build Unit := do
  let counters ← ofExcept (fun e => .context (.counter e)) ((← get).context.counters.markWindow name)
  onCounters fun _ => counters

/-- The slots of a call, if it needs any. -/
def allocateFor (call : Signature) : Build (Option Nat) := do
  if call.accums = 0 then return none
  return some (← allocate call.name call.accums)

end Build

end RelQuery
