/-
Field lists: what their entries mean and which call computes them.

In a list that begins with `*` or `allbut` the plain names are the
columns to drop; every other column of the base is carried over, under
a new name or replaced where the list says so. Such a list is first
expanded into one without.

The call is picked from what the entries hold, first match wins: a
windowed field, ordering keys, a folding field, any computed field. A
list that only keeps and renames is a rename if it keeps every column,
and a projection if it renames none.
-/
import RelQuery.Node.Basic

namespace RelQuery

-- ======================================================== expansion

/-- An entry of a list as written, with what an extension computes. -/
inductive FieldSpec (α : Type) where
  | project (name : String)
  | rename (source target : String)
  | extend (name : String) (payload : α)
  deriving Repr, DecidableEq

/-- An entry of an expanded list. -/
inductive ExpandedField (α : Type) where
  | drop (name : String)
  | keep (name : String)
  | rename (source target : String)
  | extend (name : String) (payload : α)
  deriving Repr, DecidableEq

/-- The column that an entry puts out; a drop has none. -/
def ExpandedField.output? {α : Type} : ExpandedField α → Option String
  | .drop _ => none
  | .keep name => some name
  | .rename _ target => some target
  | .extend name _ => some name

/-- Why a list cannot be expanded. -/
inductive AllButError where
  | unknownColumn (name : String)
  | conflict (name : String)
  deriving DecidableEq, Repr

namespace AllButError

def message : AllButError → String
  | .unknownColumn name => s!"unknown column '{name}'"
  | .conflict name => s!"column '{name}' is dropped, renamed or replaced more than once"

def code : AllButError → Code
  | .unknownColumn _ => Code.unknownColumn
  | .conflict _ => Code.badFieldList

end AllButError

namespace FieldSpec

variable {α : Type}

/-- The base column that an entry has to find: of a drop the one
dropped, of a rename its source. -/
def needs? : FieldSpec α → Option String
  | .project name => some name
  | .rename source _ => some source
  | .extend .. => none

/-- The name that an entry claims if the base has such a column. -/
def subject : FieldSpec α → String
  | .project name => name
  | .rename source _ => source
  | .extend name _ => name

/-- Checks the entries in order: a needed column must exist, and a
column of the base may be claimed once. -/
def checkAll (base : Heading) (claimed : List String) : List (FieldSpec α) → Except AllButError Unit
  | [] => .ok ()
  | entry :: rest =>
    if entry.needs?.any (fun name => !base.has name) then .error (.unknownColumn entry.subject)
    else if base.has entry.subject then
      if claimed.contains entry.subject then .error (.conflict entry.subject)
      else checkAll base (entry.subject :: claimed) rest
    else checkAll base claimed rest

/-- The drops of a list. -/
def drops (entries : List (FieldSpec α)) : List String :=
  entries.filterMap fun
    | .project name => some name
    | _ => none

/-- The renames of a list, as pairs of old and new. -/
def renames (entries : List (FieldSpec α)) : List (String × String) :=
  entries.filterMap fun
    | .rename source target => some (source, target)
    | _ => none

/-- The extensions of a list. -/
def extensions (entries : List (FieldSpec α)) : List (String × α) :=
  entries.filterMap fun
    | .extend name payload => some (name, payload)
    | _ => none

/-- What becomes of a base column that is not dropped. -/
def carried (entries : List (FieldSpec α)) (name : String) : ExpandedField α :=
  match (renames entries).lookup name with
  | some target => .rename name target
  | none =>
    match (extensions entries).lookup name with
    | some payload => .extend name payload
    | none => .keep name

/-- Expands a list over the base: the drops, the other base columns in
base order, then the extensions that name new columns. -/
def expand (base : Heading) (entries : List (FieldSpec α)) :
    Except AllButError (List (ExpandedField α)) := do
  checkAll base [] entries
  let dropped := drops entries
  let kept := base.names.filter fun name => !dropped.contains name
  let added := (extensions entries).filter fun e => !base.has e.1
  return dropped.map .drop ++ kept.map (carried entries) ++ added.map fun e => .extend e.1 e.2

end FieldSpec

-- ============================================================ items

/-- A checked entry of a list without `*`. -/
inductive FieldItem where
  | project (name : String)
  | rename (source target : String)
  | extend (segment : Segment)
  deriving Repr

namespace FieldItem

/-- The column that an item puts out. -/
def output : FieldItem → String
  | .project name => name
  | .rename _ target => target
  | .extend segment => segment.name

/-- The segment of a computed column. -/
def segment? : FieldItem → Option Segment
  | .extend segment => some segment
  | _ => none

/-- The two names of a renamed column. -/
def renaming? : FieldItem → Option (String × String)
  | .rename source target => some (source, target)
  | _ => none

/-- An entry as it stands. -/
def ofSpec : FieldSpec Segment → FieldItem
  | .project name => .project name
  | .rename source target => .rename source target
  | .extend _ segment => .extend segment

/-- The item of an expanded entry; a drop leaves none. -/
def ofExpanded? : ExpandedField Segment → Option FieldItem
  | .drop _ => none
  | .keep name => some (.project name)
  | .rename source target => some (.rename source target)
  | .extend _ segment => some (.extend segment)

end FieldItem

-- ========================================================= strategy

/-- What a field list becomes. -/
inductive Strategy where
  | transform (kind : TransformKind)
  /-- Every column kept, at least one under a new name. -/
  | rename
  /-- Columns kept, none renamed or computed. -/
  | projection
  deriving DecidableEq, Repr

namespace Strategy

/-- The name of the call. -/
def write : Strategy → String
  | .transform kind => kind.callName
  | .rename => "rename"
  | .projection => "project"

/-- Picks the strategy for items over a base with `degree` columns. -/
def select (items : List FieldItem) (ordered : Bool) (degree : Nat) : Strategy :=
  let computed := items.filterMap FieldItem.segment?
  if computed.any (·.kind == .window) then .transform .windowed
  else if ordered then .transform .ordered
  else if computed.any (·.kind == .fold) then .transform .aggregating
  else if !computed.isEmpty then .transform .plain
  else if (items.filterMap FieldItem.renaming?).isEmpty then .projection
  else if items.length == degree then .rename
  else .transform .plain

end Strategy

end RelQuery
