/-
Equality of types up to the order of columns, subtyping, and the key
under which equal types are filed.

`same` compares headings as sets of named columns, at every depth, so
it is an equivalence only where the names of a heading are distinct.
The key sorts the columns by name before it writes them, which is why
equal types are filed under one key. Subtyping walks the chain of
declared supertypes, which gets shorter at each step.
-/
import RelQuery.Type.Basic

namespace RelQuery

namespace DataType

-- ========================================================= equality

mutual

/-- Equal up to the order of columns. -/
def same : DataType → DataType → Bool
  | .bool, .bool => true
  | .number, .number => true
  | .text, .text => true
  | .binary, .binary => true
  | .time, .time => true
  | .tuple h, .tuple k => h.length == k.length && within h k
  | .relation h, .relation k => h.length == k.length && within h k
  | .user ⟨n, h, s⟩, .user ⟨m, k, t⟩ =>
    n == m && (h.length == k.length && within h k) && sameSuper s t
  | .code, .code => true
  | .void, .void => true
  | .unknown, .unknown => true
  | .table, .table => true
  | .row, .row => true
  | .ordered, .ordered => true
  | .ordinal, .ordinal => true
  | .any, .any => true
  | _, _ => false

/-- Equality of supertypes; two absent ones are equal. -/
def sameSuper : Option DataType → Option DataType → Bool
  | none, none => true
  | some a, some b => a.same b
  | _, _ => false

/-- Every column of the first list stands in the second with an equal
type. -/
def within : List Column → List Column → Bool
  | [], _ => true
  | ⟨name, t⟩ :: rest, k =>
    (match k.find? (·.name == name) with
      | some c => t.same c.type
      | none => false) && within rest k

end

/-- Equality of headings as sets of columns. -/
def sameHeading (h k : Heading) : Bool :=
  h.length == k.length && within h k

-- ======================================================== subtyping

/-- Whether `other` stands in the chain of declared supertypes above
the type. -/
def isSubtypeOf (other : DataType) : DataType → Bool
  | .user ⟨_, _, some parent⟩ => parent.same other || isSubtypeOf other parent
  | _ => false

-- ============================================================== keys

/-- One item of the key of a type. -/
inductive KeyPart where
  | tag (n : Nat)
  | name (s : String)
  | count (n : Nat)
  deriving DecidableEq, Repr

/-- Columns by name, the order in which a key lists them. -/
def sortByName (columns : List (String × List KeyPart)) : List (String × List KeyPart) :=
  columns.mergeSort fun a b => decide (a.1 ≤ b.1)

/-- A heading's key: how many columns, then each by name. -/
def headingKey (columns : List (String × List KeyPart)) : List KeyPart :=
  .count columns.length :: (sortByName columns).flatMap fun (n, k) => .name n :: k

mutual

/-- The sequence that identifies a type up to the order of columns. -/
def key : DataType → List KeyPart
  | .bool => [.tag 0]
  | .number => [.tag 1]
  | .text => [.tag 2]
  | .binary => [.tag 3]
  | .time => [.tag 4]
  | .tuple h => .tag 5 :: headingKey (columnKeys h)
  | .relation h => .tag 6 :: headingKey (columnKeys h)
  | .user ⟨n, h, s⟩ => .tag 7 :: .name n :: (headingKey (columnKeys h) ++ superKey s)
  | .code => [.tag 8]
  | .void => [.tag 9]
  | .unknown => [.tag 10]
  | .table => [.tag 11]
  | .row => [.tag 12]
  | .ordered => [.tag 13]
  | .ordinal => [.tag 14]
  | .any => [.tag 15]

/-- The key of an optional supertype. -/
def superKey : Option DataType → List KeyPart
  | none => [.tag 0]
  | some t => .tag 1 :: t.key

/-- The names of columns with the keys of their types. -/
def columnKeys : List Column → List (String × List KeyPart)
  | [] => []
  | ⟨n, t⟩ :: rest => (n, t.key) :: columnKeys rest

end

-- ========================================================= matching

/-- Whether a value of type `actual` may stand where the type is
declared. Code and the widest placeholder take anything. -/
def accepts (declared actual : DataType) : Bool :=
  declared.same actual ||
    (match declared with
      | .any | .code => true
      | _ => false) ||
    isSubtypeOf declared actual ||
    (match declared with
      | .table => actual.isRelation
      | .row => actual.isTuple
      | .ordered => actual.isOrdered
      | .ordinal => actual.isOrdinal
      | _ => false)

end DataType

end RelQuery
