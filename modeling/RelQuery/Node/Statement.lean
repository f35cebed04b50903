/-
Statements, and the check that no placeholder type is left in one.
-/
import RelQuery.Node.Basic

namespace RelQuery

namespace Node

mutual

/-- A node and all nodes below it, a node before its parts. -/
def nodes : Node → List Node
  | .inlined name value => .inlined name value :: value.nodes
  | .block bindings body => .block bindings body :: (boundNodes bindings ++ body.nodes)
  | .call link args type slot => .call link args type slot :: nodesAll args
  | .variadic link args type => .variadic link args type :: nodesAll args
  | .function link args type slot => .function link args type slot :: nodesAll args
  | .fold op slot arg type => .fold op slot arg type :: arg.nodes
  | .row heading values => .row heading values :: nodesAll values
  | .table heading rows => .table heading rows :: nodesAll rows
  | .selector user args => .selector user args :: nodesAll args
  | .project base heading type => .project base heading type :: base.nodes
  | .rename base pairs type => .rename base pairs type :: base.nodes
  | .transform base kind keys fields accums type =>
    .transform base kind keys fields accums type ::
      (base.nodes ++ (segmentNodes keys ++ segmentNodes fields))
  | .restrict base ⟨name, kind, accums, flags, lookup, body⟩ =>
    .restrict base ⟨name, kind, accums, flags, lookup, body⟩ :: (base.nodes ++ body.nodes)
  | .order base keys => .order base keys :: (base.nodes ++ segmentNodes keys)
  | .code ⟨name, kind, accums, flags, lookup, body⟩ =>
    .code ⟨name, kind, accums, flags, lookup, body⟩ :: body.nodes
  | .component base name type => .component base name type :: base.nodes
  | .tupleField base name type => .tupleField base name type :: base.nodes
  | .literal value => [.literal value]
  | .variable name source type => [.variable name source type]
  | .currentRow type => [.currentRow type]

/-- The nodes of a list of trees. -/
def nodesAll : List Node → List Node
  | [] => []
  | node :: rest => node.nodes ++ nodesAll rest

/-- The nodes of the bodies of segments. -/
def segmentNodes : List Segment → List Node
  | [] => []
  | ⟨_, _, _, _, _, body⟩ :: rest => body.nodes ++ segmentNodes rest

/-- The nodes of bound values. -/
def boundNodes : List BoundNode → List Node
  | [] => []
  | ⟨_, value⟩ :: rest => value.nodes ++ boundNodes rest

end

end Node

/-- A whole statement. -/
inductive Statement where
  /-- An expression whose value is the result. -/
  | expression (value : Node)
  /-- Binds a catalog variable. -/
  | assign (name : String) (value : Node)
  /-- Adds an overload to a function. -/
  | define (name : String) (call : Signature) (body : Segment)
  /-- Adds a user type. -/
  | typeDef (user : UserType)
  deriving Repr, Inhabited

/-- A node whose type is not concrete. -/
structure LooseType where
  shape : String
  type : DataType
  deriving Repr

namespace LooseType

def message (l : LooseType) : String :=
  l.shape ++ " finalized with placeholder type " ++ l.type.write

def code (_ : LooseType) : Code := Code.placeholderLeft

end LooseType

namespace Statement

/-- The type of the result; only an expression has one. -/
def dataType : Statement → DataType
  | .expression value => value.dataType
  | _ => .void

/-- The tree of a statement. -/
def root? : Statement → Option Node
  | .expression value => some value
  | .assign _ value => some value
  | .define _ _ body => some body.body
  | .typeDef _ => none

/-- The first node whose type is not concrete. -/
def loose? (s : Statement) : Option LooseType :=
  (s.root?.bind fun root => root.nodes.find? (!·.dataType.isConcrete)).map fun node =>
    ⟨node.shape, node.dataType⟩

end Statement

end RelQuery
