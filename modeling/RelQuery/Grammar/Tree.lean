/-
The tree of a sentence, before any name is resolved.

A mark is the byte offset, in the text of the sentence, of the first
token of the construct that carries it. Infix chains are kept flat;
grouping them by precedence is left to whoever knows the operators.
-/
import RelQuery.Number.Decimal
import RelQuery.Time.Moment

namespace RelQuery

/-- A written type. -/
inductive TypeExpr where
  /-- A scalar or user type. -/
  | named (name : String) (mark : Nat)
  | tuple (columns : List (String × TypeExpr))
  | relation (columns : List (String × TypeExpr))
  deriving Repr, Inhabited

/-- A key of an ordering: a column, downwards or not, delimiting
groups or not. -/
structure OrderKey where
  name : String
  descending : Bool
  grouped : Bool
  mark : Nat
  deriving DecidableEq, Repr, Inhabited

mutual

/-- An expression. -/
inductive Expr where
  | number (mark : Nat) (value : Decimal)
  | text (mark : Nat) (value : String)
  | bool (mark : Nat) (value : Bool)
  | time (mark : Nat) (value : Moment)
  | name (mark : Nat) (name : String)
  /-- `@`, the current row. -/
  | currentRow (mark : Nat)
  | call (mark : Nat) (name : String) (args : List Expr)
  /-- `fold(op, arg)`. -/
  | fold (mark : Nat) (op : String) (arg : Expr)
  /-- `first op x op x …`, not grouped. -/
  | chain (mark : Nat) (first : Expr) (steps : List Step)
  | not (mark : Nat) (arg : Expr)
  | neg (mark : Nat) (arg : Expr)
  /-- `base.name`. -/
  | member (mark : Nat) (base : Expr) (name : String)
  /-- `base.where(predicate)`. -/
  | restrict (mark : Nat) (base predicate : Expr)
  /-- `base.{ … }`. -/
  | fields (mark : Nat) (base : Expr) (list : FieldList)
  /-- `{ a := x, … }`. -/
  | row (mark : Nat) (bindings : List Binding)
  /-- `{ {a := x}, {a := y} }`. -/
  | table (mark : Nat) (rows : List (List Binding))
  /-- `{ {a: number, …} }`. -/
  | emptyTable (mark : Nat) (columns : List (String × TypeExpr))
  /-- `do { x := e; … body }`. -/
  | block (mark : Nat) (bindings : List Binding) (body : Expr)

/-- An operator of an infix chain with its right operand. -/
structure Step where
  op : String
  mark : Nat
  operand : Expr

/-- A name with the expression it stands for. -/
structure Binding where
  name : String
  value : Expr

/-- What stands between the braces of `base.{ … }`. -/
structure FieldList where
  /-- The list begins with `*` or `allbut`. -/
  allBut : Bool
  order : List OrderKey
  entries : List FieldEntry

/-- An entry of a field list. -/
inductive FieldEntry where
  | plain (name : String) (mark : Nat)
  /-- `name := value`. -/
  | computed (name : String) (mark : Nat) (value : Expr)

end

deriving instance Repr, Inhabited for Expr, Step, Binding, FieldList, FieldEntry

/-- The mark of an expression. -/
def Expr.mark : Expr → Nat
  | .number m _ | .text m _ | .bool m _ | .time m _ | .name m _ | .currentRow m
  | .call m _ _ | .fold m _ _ | .chain m _ _ | .not m _ | .neg m _ | .member m _ _
  | .restrict m _ _ | .fields m _ _ | .row m _ | .table m _ | .emptyTable m _
  | .block m _ _ => m

/-- A sentence: one statement of the language. -/
inductive Sentence where
  /-- `type name [: supertype] (components)`. -/
  | typeDef (mark : Nat) (name : String) (supertype : Option (String × Nat))
      (components : List (String × TypeExpr))
  /-- `def name(params) [: type] => body`. -/
  | define (mark : Nat) (name : String) (params : List (String × TypeExpr))
      (returns : Option TypeExpr) (body : Expr)
  /-- `name := value`. -/
  | assign (mark : Nat) (name : String) (value : Expr)
  | expression (value : Expr)
  deriving Repr, Inhabited

end RelQuery
