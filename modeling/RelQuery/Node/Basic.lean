/-
The typed tree of a statement.

Every node knows its type. A segment is a piece of code that is
invoked on its own, once for each row or group; it names the columns
of the enclosing row that its body reads. A use of a block binding
holds a copy of the bound value, so that the bindings of a block are
kept for the record only and no code is made for them.
-/
import RelQuery.Call.Resolution
import RelQuery.Code.Segment
import RelQuery.Value.Basic

namespace RelQuery

/-- Where a variable is loaded from. -/
inductive VariableSource where
  /-- A catalog variable, by value. -/
  | catalog
  /-- A catalog entry, by reference. -/
  | reference
  /-- A column of the current row. -/
  | field
  /-- A parameter of the function being defined. -/
  | parameter
  /-- A component of the user type value being transformed. -/
  | component
  deriving DecidableEq, Repr, Inhabited

/-- Sources that read the current row. -/
def VariableSource.isLookup : VariableSource → Bool
  | .field | .parameter | .component => true
  | .catalog | .reference => false

/-- The call that computes the columns of a field list. -/
inductive TransformKind where
  /-- Row by row. -/
  | plain
  /-- A field folds over its group. -/
  | aggregating
  /-- There are ordering keys. -/
  | ordered
  /-- A field looks at neighbouring rows. -/
  | windowed
  deriving DecidableEq, Repr, Inhabited

/-- The name of the call. -/
def TransformKind.callName : TransformKind → String
  | .plain => "transform"
  | .aggregating => "aggregate"
  | .ordered => "transform_ordered"
  | .windowed => "transform_windowed"

mutual

/-- A typed expression. -/
inductive Node where
  | literal (value : Value)
  | variable (name : String) (source : VariableSource) (type : DataType)
  /-- The row being looked at. -/
  | currentRow (type : DataType)
  /-- A use of a block binding, with the bound value. -/
  | inlined (name : String) (value : Node)
  | block (bindings : List BoundNode) (body : Node)
  /-- A builtin call; `slot` is its first accumulator if it folds. -/
  | call (call : Signature) (args : List Node) (type : DataType) (slot : Option Nat)
  /-- A builtin call with further arguments after the fixed ones. -/
  | variadic (call : Signature) (args : List Node) (type : DataType)
  /-- A call of a user function. -/
  | function (call : Signature) (args : List Node) (type : DataType) (slot : Option Nat)
  /-- An infix operator folded over the group. -/
  | fold (op : String) (slot : Nat) (arg : Node) (type : DataType)
  /-- A tuple; one value for each column, in heading order. -/
  | row (heading : Heading) (values : List Node)
  /-- A relation; all rows have its heading. -/
  | table (heading : Heading) (rows : List Node)
  /-- A value of a user type made from its components. -/
  | selector (user : UserType) (args : List Node)
  | project (base : Node) (heading : Heading) (type : DataType)
  /-- New names for columns, as pairs of old and new. -/
  | rename (base : Node) (pairs : List (String × String)) (type : DataType)
  /-- Computed columns; `accums` counts the slots of all fields. -/
  | transform (base : Node) (kind : TransformKind) (order fields : List Segment) (accums : Nat)
      (type : DataType)
  | restrict (base : Node) (predicate : Segment)
  | order (base : Node) (keys : List Segment)
  /-- A code segment as a value. -/
  | code (segment : Segment)
  /-- A component of a user type value. -/
  | component (base : Node) (name : String) (type : DataType)
  /-- A field of a tuple. -/
  | tupleField (base : Node) (name : String) (type : DataType)

/-- A piece of code invoked on its own. -/
structure Segment where
  /-- What the segment computes. -/
  name : String
  kind : SegmentKind
  /-- Accumulator slots of the body. -/
  accums : Nat
  flags : SegmentFlags
  /-- Columns of the enclosing row that the body reads. -/
  lookup : List Column
  body : Node

/-- A name with the value bound to it. -/
structure BoundNode where
  name : String
  value : Node

end

deriving instance Repr, Inhabited for Node, Segment, BoundNode

/-- A segment whose kind follows from what it reads and folds. -/
def Segment.make (name : String) (body : Node) (lookup : Heading) (accums : Nat)
    (hasWindow : Bool) : Segment :=
  { name, kind := .classify lookup accums hasWindow, accums, flags := .none, lookup, body }

/-- A segment that loads one column of the enclosing row. -/
def Segment.load (name : String) (type : DataType) : Segment :=
  .make name (.variable name .field type) [⟨name, type⟩] 0 false

namespace Node

/-- The type of a node. -/
def dataType : Node → DataType
  | .literal v => v.dataType
  | .variable _ _ t => t
  | .currentRow t => t
  | .inlined _ value => value.dataType
  | .block _ body => body.dataType
  | .call _ _ t _ => t
  | .variadic _ _ t => t
  | .function _ _ t _ => t
  | .fold _ _ _ t => t
  | .row h _ => .tuple h
  | .table h _ => .relation h
  | .selector user _ => .user user
  | .project _ _ t => t
  | .rename _ _ t => t
  | .transform _ _ _ _ _ t => t
  | .restrict base _ => base.dataType
  | .order base _ => base.dataType
  | .code _ => .code
  | .component _ _ t => t
  | .tupleField _ _ t => t

/-- The direct parts of a node, bodies of segments included. -/
def children : Node → List Node
  | .literal _ | .variable .. | .currentRow _ => []
  | .inlined _ value => [value]
  | .block bindings body => bindings.map (·.value) ++ [body]
  | .call _ args _ _ | .variadic _ args _ | .function _ args _ _ | .selector _ args => args
  | .fold _ _ arg _ => [arg]
  | .row _ values => values
  | .table _ rows => rows
  | .project base _ _ | .rename base _ _ | .component base _ _ | .tupleField base _ _ => [base]
  | .transform base _ keys fields _ _ => base :: (keys ++ fields).map (·.body)
  | .restrict base predicate => [base, predicate.body]
  | .order base keys => base :: keys.map (·.body)
  | .code segment => [segment.body]

/-- The name of a node's shape. -/
def shape : Node → String
  | .literal _ => "literal"
  | .variable .. => "variable"
  | .currentRow _ => "current row"
  | .inlined .. => "local"
  | .block .. => "block"
  | .call .. => "call"
  | .variadic .. => "variadic call"
  | .function .. => "function call"
  | .fold .. => "fold"
  | .row .. => "row"
  | .table .. => "table"
  | .selector .. => "selector"
  | .project .. => "projection"
  | .rename .. => "rename"
  | .transform .. => "transform"
  | .restrict .. => "restriction"
  | .order .. => "ordering"
  | .code _ => "code"
  | .component .. => "component"
  | .tupleField .. => "tuple field"

end Node

end RelQuery
