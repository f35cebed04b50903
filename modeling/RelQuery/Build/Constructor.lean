/-
Rows, tables and blocks.
-/
import RelQuery.Build.Basic

namespace RelQuery.Build

/-- The heading of named values. -/
def rowHeading (out : Heading) : List (String × Node) → Except HeadingError Heading
  | [] => .ok out
  | (name, value) :: rest => do rowHeading (← out.push ⟨name, value.dataType⟩) rest

/-- A row. -/
def row (fields : List (String × Node)) : Build Node := do
  let heading ← ofExcept .heading (rowHeading [] fields)
  return .row heading (fields.map (·.2))

/-- A list without the item at a position; the last item moves into its
place. -/
def swapRemove {α : Type} (xs : List α) (i : Nat) : List α :=
  match xs.getLast? with
  | none => []
  | some last => (xs.set i last).dropLast

/-- Takes named items out of a list one after another; a name that does
not stand there is passed over. -/
def takeNamed {α : Type} : List String → List (String × α) → List α
  | [], _ => []
  | name :: names, pairs =>
    let i := pairs.findIdx (·.1 == name)
    match pairs[i]? with
    | some pair => pair.2 :: takeNamed names (swapRemove pairs i)
    | none => takeNamed names pairs

/-- The values of a row in the order of a heading. -/
def reorder (heading : Heading) (fields : List (String × Node)) : List Node :=
  takeNamed heading.names fields

/-- The rows of a table; each must have the columns of `first`, and
gets them in that order. -/
def rowsLike (first : Heading) : List (List (String × Node)) → Except BuildError (List Node)
  | [] => .ok []
  | fields :: rest => do
    let heading ← (rowHeading [] fields).mapError .heading
    if DataType.sameHeading first heading then
      return .row first (reorder first fields) :: (← rowsLike first rest)
    else .error (.rowsDiffer first heading)

/-- A table; its first row gives the heading. -/
def table : List (List (String × Node)) → Build Node
  | [] => pure (.table [] [])
  | fields :: rest => do
    let heading ← ofExcept .heading (rowHeading [] fields)
    let rows ← ofExcept id (rowsLike heading rest)
    return .table heading (.row heading (fields.map (·.2)) :: rows)

-- =========================================================== blocks

/-- Opens a block and gives the first slot it may bind. -/
def enterBlock : Build Nat := do
  onContext (·.push none .inherit)
  return (← get).locals.length

/-- Begins the value of a binding. -/
def beginLocal : Build Unit := do
  onScopes fun s => ((), s.trackReads)
  modify fun w => { w with pending := w.context.counters.current :: w.pending }

/-- Puts back the counter that `beginLocal` set aside. -/
def restoreCounter : Build Unit :=
  modify fun w =>
    match w.pending with
    | [] => w
    | saved :: rest =>
      { w with
        pending := rest
        context := { w.context with counters := w.context.counters.restore saved } }

/-- Binds the value begun last. Its folds were only checked: they get
their slots at each use. -/
def bindLocal (name : String) (value : Node) : Build Unit := do
  let level := (← get).context.scopes.level
  let reads ← onScopes (·.takeReads)
  restoreCounter
  let w ← get
  let symbol : Symbol := { name, kind := .bound w.locals.length, type := value.dataType }
  let scopes ← ofExcept (fun e => .context (.scope e)) (w.context.scopes.add symbol)
  onScopes fun _ => ((), scopes)
  modify fun w =>
    { w with locals := w.locals ++ [⟨name, value, reads.filter (·.level ≤ level)⟩] }

/-- Closes a block whose first slot is given. -/
def block (first : Nat) (body : Node) : Build Node := do
  discard leave
  let locals := (← get).locals
  modify fun w => { w with locals := locals.take first }
  return .block ((locals.drop first).map fun l => ⟨l.name, l.value⟩) body

end RelQuery.Build
