/-
Code for statements.

Operands come first, then the instruction that consumes them. A call
that folds gets the accumulators and its first slot as two leading
arguments. A segment stands in the code with its own code inside; the
code of a segment is written before the segment is, so that a fault in
it is the one reported.
-/
import RelQuery.Code.Encode
import RelQuery.Node.Statement

namespace RelQuery

-- ========================================================= assembly

namespace Instruction

mutual

/-- The bytes of an instruction, after a look at the instructions
nested in it. -/
def assemble : Instruction → Chunk
  | .loadSegment block body =>
    match (assembleAll body).fault with
    | some e => .fail e
    | none => encode (.loadSegment block body)
  | i => i.encode

/-- The bytes of instructions one after another. -/
def assembleAll : List Instruction → Chunk
  | [] => .empty
  | i :: rest => assemble i ++ assembleAll rest

end

/-- Pushes a segment with the given body. -/
def segment (name : String) (kind : SegmentKind) (accums : Nat) (flags : SegmentFlags)
    (lookup : Heading) (body : List Instruction) : Instruction :=
  .loadSegment { name, kind, accums, flags, lookup, code := (assembleAll body).bytes } body

/-- Pushes a text. -/
def loadText (s : String) : Instruction := .loadValue (.text s)

/-- Pushes a heading. -/
def loadHeading (h : Heading) : Instruction := .loadValue (.heading h)

/-- Pushes the accumulators and the first slot of a fold. -/
def loadSlot (slot : Nat) : List Instruction :=
  [.loadAccumulators, .loadValue (.number ((Decimal.ofNat? slot).getD .zero))]

/-- Pushes the accumulators for a call that folds. -/
def loadSlot? : Option Nat → List Instruction
  | some slot => loadSlot slot
  | none => []

/-- A call with further arguments; whether it makes a relation decides
the operation. -/
def callFor (isRelation : Bool) (name : String) (fixed more : Nat) : Instruction :=
  if isRelation then .callVariadicTable name fixed more else .callVariadic name fixed more

end Instruction

-- ============================================================ nodes

namespace Node

open Instruction

/-- Pushes the value of a variable. -/
def lowerVariable (name : String) : VariableSource → List Instruction
  | .catalog => [.loadCatalog name]
  | .reference => [.loadCatalogRef name]
  | .field | .parameter => [.loadField name]
  | .component => [.loadLookup, .loadComponent name]

/-- Pushes the names of renamed columns. -/
def lowerPairs : List (String × String) → List Instruction
  | [] => []
  | (source, target) :: rest => loadText source :: loadText target :: lowerPairs rest

mutual

/-- The code that pushes the value of a node. -/
def lower : Node → List Instruction
  | .literal value => [.loadValue value]
  | .variable name source _ => lowerVariable name source
  | .currentRow _ => [.loadLookup]
  | .inlined _ value => value.lower
  | .block _ body => body.lower
  | .call link args _ slot =>
    loadSlot? slot ++ (lowerAll args ++ [.call link.name (args.length + (loadSlot? slot).length)])
  | .variadic link args type =>
    lowerAll args ++ [callFor type.isRelation link.name link.arity (args.length - link.arity)]
  | .function link args _ slot =>
    .loadCatalogRef link.name :: (loadSlot? slot ++ (lowerAll args ++
      [.callVariadic "invoke" (1 + (loadSlot? slot).length) args.length]))
  | .fold op slot arg _ => loadSlot slot ++ (loadText op :: (arg.lower ++ [.call "fold" 4]))
  | .row heading values =>
    loadHeading heading :: (lowerAll values ++ [.callVariadic "row" 1 values.length])
  | .table heading rows =>
    loadHeading heading :: (lowerAll rows ++ [.callVariadicTable "table" 1 rows.length])
  | .selector user args =>
    loadText user.name :: (lowerAll args ++ [.callVariadic "select" 1 args.length])
  | .project base heading _ => base.lower ++ [loadHeading heading, .call "project" 2]
  | .rename base pairs type =>
    base.lower ++ (lowerPairs pairs ++ [callFor type.isRelation "rename" 1 (pairs.length * 2)])
  | .transform base kind keys fields _ type =>
    base.lower ++ (lowerSegments keys ++ (lowerSegments fields ++
      [callFor type.isRelation kind.callName 1 (keys.length + fields.length)]))
  | .restrict base ⟨name, kind, accums, flags, lookup, body⟩ =>
    base.lower ++ [segment name kind accums flags lookup body.lower, .call "restrict" 2]
  | .order base keys =>
    base.lower ++ (lowerSegments keys ++ [.callVariadicTable "order" 1 keys.length])
  | .code ⟨name, kind, accums, flags, lookup, body⟩ =>
    [segment name kind accums flags lookup body.lower]
  | .component base name _ => base.lower ++ [.loadComponent name]
  | .tupleField base name _ => base.lower ++ [.loadTupleField name]

/-- Pushes the values of nodes one after another. -/
def lowerAll : List Node → List Instruction
  | [] => []
  | node :: rest => node.lower ++ lowerAll rest

/-- Pushes segments one after another. -/
def lowerSegments : List Segment → List Instruction
  | [] => []
  | ⟨name, kind, accums, flags, lookup, body⟩ :: rest =>
    segment name kind accums flags lookup body.lower :: lowerSegments rest

end

end Node

/-- Pushes a segment. -/
def Segment.lower (s : Segment) : Instruction :=
  .segment s.name s.kind s.accums s.flags s.lookup s.body.lower

-- ======================================================= statements

namespace Statement

open Instruction

/-- The instructions of a statement. -/
def lower : Statement → List Instruction
  | .expression value => value.lower ++ [.finish]
  | .assign name value => loadText name :: (value.lower ++ [.call "assign" 2, .finish])
  | .define name link body =>
    [loadText name, loadHeading (link.args.foldl Heading.insertNew []), body.lower,
      .call "define" 3, .finish]
  | .typeDef user =>
    [loadText user.name, loadHeading user.heading, .call "deftype" 2, .finish]

/-- The code of a statement. -/
def emit (s : Statement) : Except EncodeError (List UInt8) :=
  (assembleAll s.lower).result

end Statement

end RelQuery
