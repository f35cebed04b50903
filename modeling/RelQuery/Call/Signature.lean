/-
Signatures of callables and chains of overloads.

A chain holds the signatures registered under one name. User
definitions enter it one by one: a signature with the argument types
of an earlier one takes its place, any other goes to the end, and all
links share return type and argument count.
-/
import RelQuery.Diagnostic.Code
import RelQuery.Type.Heading

namespace RelQuery

/-- How a resolved call is made. -/
inductive CallKind where
  /-- Builtin with a fixed number of arguments. -/
  | fixed
  /-- Variadic builtin that returns a value. -/
  | variadic
  /-- Variadic builtin that returns a relation. -/
  | variadicTable
  /-- User function, called through its reference. -/
  | deferred
  /-- The generic fold over an operator. -/
  | fold
  deriving DecidableEq, Repr, Inhabited

/-- How a relational operator merges the headings of its operands. -/
inductive Merge where
  /-- The columns of both. -/
  | join
  /-- The columns of one side only. -/
  | compose
  /-- The left columns; shared ones must agree. -/
  | left
  /-- Equal headings; the left one. -/
  | same
  /-- Equal headings; the declared type. -/
  | compare
  deriving DecidableEq, Repr, Inhabited

/-- One way to call a name. -/
structure Signature where
  name : String
  returns : DataType
  args : List Column
  /-- The type of further arguments, for variadic calls. -/
  variadic : Option DataType
  /-- Accumulator slots that one call takes. -/
  accums : Nat
  windowed : Bool
  kind : CallKind
  deriving Repr, Inhabited

namespace Signature

/-- The number of fixed arguments. -/
def arity (s : Signature) : Nat :=
  s.args.length

/-- The types of the fixed arguments. -/
def argTypes (s : Signature) : List DataType :=
  s.args.map (·.type)

/-- Pairwise equal types, and as many on both sides. -/
def sameTypes : List DataType → List DataType → Bool
  | [], [] => true
  | a :: as, b :: bs => a.same b && sameTypes as bs
  | _, _ => false

/-- Equal argument types in the same positions. -/
def sameArguments (s t : Signature) : Bool :=
  DataType.sameSuper s.variadic t.variadic && sameTypes s.argTypes t.argTypes

/-- The written form: `name(types): type`. -/
def write (s : Signature) : String :=
  let fixed := s.argTypes.map DataType.write
  let more := match s.variadic with
    | some t => [t.write ++ "..."]
    | none => []
  s.name ++ "(" ++ String.intercalate ", " (fixed ++ more) ++ "): " ++ s.returns.write

end Signature

/-- Why a definition cannot join a chain. -/
inductive OverloadError where
  | arityConflict (name : String) (expected found : Nat)
  | returnConflict (name : String) (expected found : DataType)
  deriving Repr

namespace OverloadError

def message : OverloadError → String
  | .arityConflict name expected found =>
    s!"invalid overload of '{name}': expected {expected} arguments, found {found}"
  | .returnConflict name expected found =>
    s!"return type mismatch for '{name}': expected " ++ expected.write ++ ", found " ++ found.write

def code : OverloadError → Code
  | .arityConflict .. => Code.badOverload
  | .returnConflict .. => Code.returnMismatch

end OverloadError

/-- The signatures of one name, in the order of registration. -/
abbrev Overloads := List Signature

namespace Overloads

/-- Puts a signature in the place of the first one with equal argument
types, or at the end. -/
def put (link : Signature) : List Signature → List Signature
  | [] => [link]
  | s :: rest => if s.sameArguments link then link :: rest else s :: put link rest

/-- Registers a user definition. -/
def add (chain : Overloads) (link : Signature) : Except OverloadError Overloads :=
  match chain with
  | [] => .ok [link]
  | first :: _ =>
    if !first.returns.same link.returns then
      .error (.returnConflict link.name first.returns link.returns)
    else if first.arity != link.arity then
      .error (.arityConflict link.name first.arity link.arity)
    else .ok (put link chain)

end Overloads

end RelQuery
