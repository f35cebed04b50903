/-
Restrictions and field lists.

A predicate is built in a scope of its own that refuses folds. A field
list opens a scope that allows them; each computed field has a scope
inside it for what it reads, and counts its folds with the list. A
list that continues another one takes over the scope of the first.
-/
import RelQuery.Build.Basic

namespace RelQuery.Build

-- ===================================================== restrictions

/-- Opens the scope of a predicate over a relation. -/
def enterRestrict (base : Node) : Build Unit :=
  if base.dataType.isRelation then onContext (·.push base.dataType .disabled)
  else fail (.restrictedType base.dataType)

/-- Closes the scope of a predicate. -/
def restrict (base predicate : Node) : Build Node := do
  let captured ← leave
  if !predicate.dataType.same .bool then fail (.predicateType predicate.dataType)
  match Builtin.find? "restrict" with
  | some symbol => discard (ofExcept .type (symbol.resolve [base.dataType, .code]))
  | none => pure ()
  let counter := captured.counter.getD {}
  return .restrict base
    (.make "where" predicate captured.scope.lookup counter.total counter.hasWindow)

-- ====================================================== field lists

/-- Opens the frame of a list over a base that has a heading. -/
def openFrame (base : Node) (allBut : Bool) : Build Unit :=
  modify fun w => { w with frames := ⟨base.dataType, allBut⟩ :: w.frames }

/-- Opens a field list. -/
def enterFields (base : Node) (allBut : Bool) : Build Unit := do
  if base.dataType.heading?.isNone then fail (.fieldListType base.dataType)
  onContext (·.push base.dataType .enabled)
  openFrame base allBut

/-- Opens a field list in the scope that the list before it left. -/
def chainFields (base : Node) (allBut : Bool) : Build Unit := do
  if base.dataType.heading?.isNone then fail (.fieldListType base.dataType)
  openFrame base allBut

/-- The innermost open list. -/
def frame : Build FieldFrame := do
  match (← get).frames with
  | [] => fail .noFieldList
  | frame :: _ => return frame

/-- A key of an ordering, which must name a column of the base. -/
def orderKey (name : String) (descending grouped : Bool) : Build Segment := do
  match ← resolve name with
  | some symbol =>
    if symbol.kind = .field || symbol.kind = .component then
      return { Segment.load name symbol.type with flags := ⟨true, descending, grouped⟩ }
    else fail (.unknownOrderColumn name)
  | none => fail (.unknownOrderColumn name)

/-- Whether an entry with this bare name as its value is a rename: in
an all-but list, if the name is a column of the base. -/
def isRename (name : String) : Build Bool := do
  match (← get).frames with
  | [] => return false
  | frame :: _ => return frame.allBut && frame.base.heading?.any (Heading.has · name)

/-- Opens the scope of a computed field. -/
def beginField : Build Unit := do
  let frame ← frame
  onContext (·.push frame.base .inherit)
  onCounters (·.update .resetField)

/-- Closes the scope of a computed field. -/
def endField (name : String) (value : Node) : Build Segment := do
  let counter ← counter
  let captured ← leave
  return .make name value captured.scope.lookup counter.segments counter.hasWindow

/-- The items of a list over a heading. -/
def fieldItems (frame : FieldFrame) (entries : List (FieldSpec Segment)) : Build (List FieldItem) :=
  if frame.allBut then do
    let expanded ← ofExcept .allBut (FieldSpec.expand (frame.base.heading?.getD []) entries)
    return expanded.filterMap FieldItem.ofExpanded?
  else pure (entries.map .ofSpec)

/-- The type of the column that an item puts out. -/
def itemType (heading : Heading) : FieldItem → Except HeadingError DataType
  | .project name | .rename name _ =>
    match Heading.get? heading name with
    | some column => .ok column.type
    | none => .error (.unknownColumn name)
  | .extend segment => .ok segment.body.dataType

/-- The columns that items put out, added to those already there. -/
def outputHeading (heading : Heading) (out : Heading) : List FieldItem → Except HeadingError Heading
  | [] => .ok out
  | item :: rest => do
    let type ← itemType heading item
    outputHeading heading (← out.push ⟨item.output, type⟩) rest

/-- Closes the scope of a list, or hands it on to the next one, and
tells what was folded. -/
def closeFields (keepOpen : Bool) (type : DataType) : Build Counter := do
  if keepOpen then
    let counter ← counter
    discard (ofContext (·.reenter type))
    return counter
  else
    let captured ← leave
    return captured.counter.getD {}

/-- The segment that computes an item. -/
def itemSegment (heading : Heading) : FieldItem → Segment
  | .project name => .load name (typeIn name)
  | .rename source target => { Segment.load source (typeIn source) with name := target }
  | .extend segment => segment
where
  typeIn (name : String) : DataType := ((Heading.get? heading name).map (·.type)).getD .unknown

/-- The node of a checked list. -/
def fieldNode (base : Node) (heading output : Heading) (type : DataType) (order : List Segment)
    (items : List FieldItem) (accums : Nat) : Node :=
  if items.isEmpty && !order.isEmpty then .order base order
  else
    match Strategy.select items (!order.isEmpty) heading.length with
    | .projection => .project base output type
    | .rename => .rename base (items.filterMap FieldItem.renaming?) type
    | .transform kind => .transform base kind order (items.map (itemSegment heading)) accums type

/-- Closes a field list. With `keepOpen` its scope is kept for the
list that follows, seeded anew with the columns of the result. -/
def finishFields (base : Node) (order : List Segment) (entries : List (FieldSpec Segment))
    (keepOpen : Bool) : Build Node := do
  let frame ← frame
  modify fun w => { w with frames := w.frames.tail }
  let heading := frame.base.heading?.getD []
  let items ← fieldItems frame entries
  let output ← ofExcept .heading (outputHeading heading [] items)
  let type := if frame.base.isRelation then .relation output else .tuple output
  let counter ← closeFields keepOpen type
  return fieldNode base heading output type order items counter.total

end RelQuery.Build
