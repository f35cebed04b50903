/-
The context of a statement being compiled: its scopes and counters,
opened and closed together.
-/
import RelQuery.Context.Counter
import RelQuery.Context.Scope

namespace RelQuery

/-- Why a context operation fails. -/
inductive ContextError where
  | scope (e : ScopeError)
  | counter (e : CounterError)
  deriving DecidableEq, Repr

namespace ContextError

def message : ContextError → String
  | .scope e => e.message
  | .counter e => e.message

def code : ContextError → Code
  | .scope e => e.code
  | .counter e => e.code

/-- An underflow is a defect of the compiler. -/
def isInternal : ContextError → Bool
  | .scope .underflow | .counter .underflow => true
  | _ => false

end ContextError

/-- What a closed level leaves. -/
structure Captured where
  scope : Scope
  /-- The level's own counter; absent when it was inherited. -/
  counter : Option Counter
  deriving Repr

/-- Scopes and counters. -/
structure Context where
  scopes : Scopes
  counters : Counters
  deriving Repr, Inhabited

namespace Context

/-- The context of a new statement. -/
def fresh : Context := ⟨.fresh, .fresh⟩

/-- Opens a level for a type. -/
def push (c : Context) (type : Option DataType) (mode : FoldMode) : Context :=
  ⟨c.scopes.push type, c.counters.push mode⟩

/-- Opens a level for a function's parameters. -/
def pushParameters (c : Context) (params : Heading) : Context :=
  ⟨c.scopes.pushParameters params, c.counters.push .enabled⟩

/-- Closes the innermost level. The scope is gone even when there is
no counter to go with it. -/
def pop (c : Context) : Except ContextError Captured × Context :=
  match c.scopes.pop with
  | .error e => (.error (.scope e), c)
  | .ok (scope, scopes) =>
    match c.counters.pop with
    | .error e => (.error (.counter e), { c with scopes })
    | .ok (counter, counters) => (.ok ⟨scope, counter⟩, ⟨scopes, counters⟩)

/-- Replaces the innermost scope by one for another type, or by a new
one for its own heading. The counter stays and begins anew. -/
def reenter (c : Context) (type : Option DataType) : Except ContextError Scope × Context :=
  let heading := c.scopes.current.heading
  match c.scopes.pop with
  | .error e => (.error (.scope e), c)
  | .ok (scope, scopes) =>
    (.ok scope, ⟨scopes.push (type.orElse fun _ => heading.map .tuple), c.counters.update .reset⟩)

/-- How many levels are open. -/
def depth (c : Context) : Nat := c.scopes.depth

/-- As many counters as scopes. -/
def inSync (c : Context) : Bool := c.scopes.depth == c.counters.depth

end Context

end RelQuery
