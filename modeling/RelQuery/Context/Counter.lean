/-
Counters of accumulator slots for folds and windowed operators.

Each open scope has an entry: a counter of its own, or a reference to
the nearest one further out. Statements begin without a counter that
allows folding.
-/
import RelQuery.Diagnostic.Code

namespace RelQuery

/-- What was folded in one fold scope. -/
structure Counter where
  /-- Whether folding is allowed. -/
  enabled : Bool := false
  /-- Slots handed out. -/
  total : Nat := 0
  /-- Slots handed out for the current field. -/
  segments : Nat := 0
  /-- Whether the current field has a windowed operator. -/
  hasWindow : Bool := false
  deriving DecidableEq, Repr, Inhabited

namespace Counter

/-- A counter that allows folding. -/
def counting : Counter := { enabled := true }

/-- A counter that refuses folds. -/
def refusing : Counter := {}

/-- Hands out `n` slots. -/
def allocate (c : Counter) (n : Nat) : Counter :=
  { c with total := c.total + n, segments := c.segments + n }

/-- Begins the next field; the total keeps growing. -/
def resetField (c : Counter) : Counter :=
  { c with segments := 0, hasWindow := false }

/-- Begins anew for another heading. -/
def reset (c : Counter) : Counter :=
  { c.resetField with total := 0 }

end Counter

/-- How a new scope takes part in folding. -/
inductive FoldMode where
  /-- Folds are allowed and counted here. -/
  | enabled
  /-- Folds are refused here. -/
  | disabled
  /-- Folds count for the nearest counter further out. -/
  | inherit
  deriving DecidableEq, Repr, Inhabited

/-- Why a fold or a windowed operator is refused. -/
inductive CounterError where
  | strayAggregate (name : String)
  | strayWindow (name : String)
  | underflow
  deriving DecidableEq, Repr

namespace CounterError

def message : CounterError → String
  | .strayAggregate name => s!"aggregate '{name}' outside of a grouping context"
  | .strayWindow name => s!"window operator '{name}' outside of a transform"
  | .underflow => "accumulator stack underflow"

def code : CounterError → Code
  | .strayAggregate _ => Code.strayAggregate
  | .strayWindow _ => Code.strayWindow
  | .underflow => Code.stackUnderflow

end CounterError

/-- The counters of the open scopes. -/
structure Counters where
  /-- The statement's counter. -/
  root : Counter
  /-- One entry for each open scope, innermost first; an absent
  counter is inherited. -/
  entries : List (Option Counter)
  deriving DecidableEq, Repr, Inhabited

namespace Counters

/-- Only the statement's counter, which refuses folds. -/
def fresh : Counters := ⟨.refusing, []⟩

def depth (c : Counters) : Nat := c.entries.length

/-- Adds an entry for a new scope. -/
def push (c : Counters) (mode : FoldMode) : Counters :=
  { c with entries := (match mode with
      | .enabled => some .counting
      | .disabled => some .refusing
      | .inherit => none) :: c.entries }

/-- Removes the innermost entry and gives it back. -/
def pop (c : Counters) : Except CounterError (Option Counter × Counters) :=
  match c.entries with
  | [] => .error .underflow
  | entry :: rest => .ok (entry, { c with entries := rest })

/-- The counter that is in force. -/
def current (c : Counters) : Counter :=
  (c.entries.findSome? id).getD c.root

/-- Changes the innermost counter of a list of entries. -/
def updateFirst (f : Counter → Counter) : List (Option Counter) → List (Option Counter)
  | [] => []
  | some counter :: rest => some (f counter) :: rest
  | none :: rest => none :: updateFirst f rest

/-- Changes the counter that is in force. -/
def update (c : Counters) (f : Counter → Counter) : Counters :=
  if c.entries.any (·.isSome) then { c with entries := updateFirst f c.entries }
  else { c with root := f c.root }

/-- Hands out `n` slots for a fold and gives the first one. -/
def allocate (c : Counters) (name : String) (n : Nat) : Except CounterError (Nat × Counters) :=
  if c.current.enabled then .ok (c.current.total, c.update (·.allocate n))
  else .error (.strayAggregate name)

/-- Notes a windowed operator. -/
def markWindow (c : Counters) (name : String) : Except CounterError Counters :=
  if c.current.enabled then .ok (c.update fun counter => { counter with hasWindow := true })
  else .error (.strayWindow name)

/-- Puts back a counter taken earlier. -/
def restore (c : Counters) (saved : Counter) : Counters :=
  c.update fun _ => saved

end Counters

end RelQuery
