/-
Code segments: how one is evaluated, its flags and its header.
-/
import RelQuery.Type.Heading

namespace RelQuery

/-- How a segment is evaluated. -/
inductive SegmentKind where
  /-- Reads nothing of the enclosing row: once. -/
  | closed
  /-- Reads the enclosing row: for each row. -/
  | rowwise
  /-- Folds: needs accumulators. -/
  | fold
  /-- Looks at neighbouring rows: needs ordered input. -/
  | window
  deriving DecidableEq, Repr, Inhabited

namespace SegmentKind

/-- The kind of a segment from what it reads and folds. -/
def classify (lookup : Heading) (accums : Nat) (hasWindow : Bool) : SegmentKind :=
  if hasWindow then .window
  else if 0 < accums then .fold
  else if lookup.isEmpty then .closed
  else .rowwise

def toByte : SegmentKind → UInt8
  | .closed => 0
  | .rowwise => 1
  | .fold => 2
  | .window => 3

def ofByte? (b : UInt8) : Option SegmentKind :=
  match b.toNat with
  | 0 => some .closed
  | 1 => some .rowwise
  | 2 => some .fold
  | 3 => some .window
  | _ => none

def write : SegmentKind → String
  | .closed => "closed"
  | .rowwise => "open"
  | .fold => "fold"
  | .window => "window"

end SegmentKind

/-- What an ordering key is marked with. -/
structure SegmentFlags where
  /-- The segment is an ordering key. -/
  order : Bool := false
  /-- The key runs downwards. -/
  descending : Bool := false
  /-- The key delimits groups. -/
  grouped : Bool := false
  deriving DecidableEq, Repr, Inhabited

namespace SegmentFlags

/-- No flag at all. -/
def none : SegmentFlags := {}

def bits (f : SegmentFlags) : Nat :=
  (if f.order then 1 else 0) + (if f.descending then 2 else 0) + (if f.grouped then 4 else 0)

/-- The flags of the three lowest bits. -/
def ofBits (n : Nat) : SegmentFlags :=
  ⟨n % 2 == 1, n / 2 % 2 == 1, n / 4 % 2 == 1⟩

/-- The flags of either side. -/
def union (f g : SegmentFlags) : SegmentFlags :=
  ⟨f.order || g.order, f.descending || g.descending, f.grouped || g.grouped⟩

def write (f : SegmentFlags) : String :=
  String.intercalate "|" ((if f.order then ["order"] else []) ++
    (if f.descending then ["desc"] else []) ++ (if f.grouped then ["grouped"] else []))

end SegmentFlags

/-- A compiled segment: its header and its code. -/
structure CodeBlock where
  /-- What the segment computes. -/
  name : String
  kind : SegmentKind
  /-- Accumulator slots that the code needs. -/
  accums : Nat
  flags : SegmentFlags
  /-- Columns of the enclosing row that the code reads. -/
  lookup : Heading
  code : List UInt8
  deriving Repr, Inhabited

/-- A block whose kind follows from what it reads and folds. -/
def CodeBlock.make (name : String) (lookup : Heading) (accums : Nat) (hasWindow : Bool)
    (code : List UInt8) : CodeBlock :=
  { name, kind := .classify lookup accums hasWindow, accums, flags := .none, lookup, code }

end RelQuery
