/-
Resolving a call: choosing the overload and finding the result type.

The first link whose declared types accept the actual ones is chosen.
Comparing two values of equal types needs no link of its own. A
relational operator whose operands are all relations takes its result
from the merged headings; a placeholder return type becomes the type
of the first argument.
-/
import RelQuery.Call.Symbol

namespace RelQuery

/-- Why a call does not fit. -/
inductive TypeError where
  | argumentCount (name : String) (expected found : Nat)
  | mismatch (name : String) (actuals : List DataType)
  | duplicateColumn (name column : String)
  | headingMismatch (name : String) (left right : Heading)
  | notCallable (name : String)
  | unresolvedReturn (name : String)
  deriving Repr

namespace TypeError

/-- The written forms of types, separated by commas. -/
def writeTypes (types : List DataType) : String :=
  String.intercalate ", " (types.map DataType.write)

def message : TypeError → String
  | .argumentCount name expected found => s!"'{name}' expected {expected} arguments, found {found}"
  | .mismatch name actuals =>
    s!"type mismatch for '{name}' with arguments (" ++ writeTypes actuals ++ ")"
  | .duplicateColumn name column => s!"duplicate column '{column}' in result of '{name}'"
  | .headingMismatch name left right =>
    s!"heading mismatch for '{name}': " ++ Heading.write left ++ " vs " ++ Heading.write right
  | .notCallable name => s!"'{name}' is not callable"
  | .unresolvedReturn name => s!"cannot resolve the return type of '{name}' without arguments"

def code : TypeError → Code
  | .argumentCount .. => Code.argumentCount
  | .mismatch .. => Code.typeMismatch
  | .duplicateColumn .. => Code.duplicateColumn
  | .headingMismatch .. => Code.headingMismatch
  | .notCallable .. => Code.notCallable
  | .unresolvedReturn .. => Code.placeholderLeft

/-- A defect of the compiler rather than of the program. -/
def isInternal : TypeError → Bool
  | .unresolvedReturn _ => true
  | _ => false

end TypeError

/-- The chosen link and the type of the call. -/
structure Resolved where
  type : DataType
  call : Signature
  deriving Repr

namespace Signature

/-- Whether declared types accept as many actual ones. -/
def acceptAll : List DataType → List DataType → Bool
  | [], [] => true
  | d :: ds, a :: as => d.accepts a && acceptAll ds as
  | _, _ => false

/-- Whether the signature accepts the actual types. -/
def acceptsCall (s : Signature) (actuals : List DataType) : Bool :=
  acceptAll s.argTypes (actuals.take s.arity) &&
    match s.variadic with
    | some t => (actuals.drop s.arity).all t.accepts
    | none => actuals.length == s.arity

/-- The signature with its argument types replaced by actual ones. -/
def withTypes (s : Signature) (actuals : List DataType) : Signature :=
  { s with args := s.args.zipWith (fun c t => ⟨c.name, t⟩) actuals ++ s.args.drop actuals.length }

end Signature

/-- The headings of types that are all relations. -/
def relationHeadings? : List DataType → Option (List Heading)
  | [] => some []
  | .relation h :: rest => (relationHeadings? rest).map (h :: ·)
  | _ => none

/-- Joins headings onto `out` one after another. -/
def joinAll (out : Heading) : List Heading → Except HeadingError Heading
  | [] => .ok out
  | h :: rest => do joinAll (← Heading.union out h) rest

/-- The heading that results from merging `first` with `others`, of
which there is at least one. -/
def mergeHeadings (name : String) (policy : Merge) (first second : Heading)
    (others : List Heading) : Except TypeError Heading :=
  let duplicate (e : HeadingError) : TypeError := .duplicateColumn name e.column
  match policy with
  | .join => (joinAll first (second :: others)).mapError duplicate
  | .compose => (Heading.compose first second).mapError duplicate
  | .left => ((Heading.union first second).map fun _ => first).mapError duplicate
  | .same | .compare =>
    match (second :: others).find? (fun h => !DataType.sameHeading h first) with
    | some other => .error (.headingMismatch name first other)
    | none => .ok first

/-- A placeholder return type becomes the type of the first argument. -/
def resolveReturn (name : String) (declared : DataType) (actuals : List DataType) :
    Except TypeError DataType :=
  if declared.isPlaceholder then
    match actuals with
    | first :: _ => .ok first
    | [] => .error (.unresolvedReturn name)
  else .ok declared

namespace Symbol

/-- Whether a chain that begins with `first` takes `count` arguments. -/
def takesCount (first : Signature) (count : Nat) : Bool :=
  if first.variadic.isSome then first.arity ≤ count else count == first.arity

/-- Two operands of equal type under a comparison. -/
def comparesEqualTypes (s : Symbol) : List DataType → Bool
  | [a, b] => s.isComparison && a.same b
  | _ => false

/-- The link that a call uses. -/
def choose (s : Symbol) (first : Signature) (actuals : List DataType) :
    Except TypeError Signature :=
  if s.comparesEqualTypes actuals then .ok (first.withTypes actuals)
  else
    match s.links.find? (·.acceptsCall actuals) with
    | some link => .ok link
    | none => .error (.mismatch s.name actuals)

/-- The result type of a call of the chosen link. -/
def resultType (s : Symbol) (call : Signature) (actuals : List DataType) :
    Except TypeError DataType :=
  match s.merge, relationHeadings? actuals with
  | some policy, some (first :: second :: others) => do
    let merged ← mergeHeadings s.name policy first second others
    return if policy = .compare then call.returns else .relation merged
  | _, _ => resolveReturn s.name call.returns actuals

/-- Resolves a call of the symbol with arguments of the given types. -/
def resolve (s : Symbol) (actuals : List DataType) : Except TypeError Resolved :=
  match s.links with
  | [] => .error (.notCallable s.name)
  | first :: _ =>
    if !takesCount first actuals.length then
      .error (.argumentCount s.name first.arity actuals.length)
    else do
      let call ← s.choose first actuals
      let type ← s.resultType call actuals
      return ⟨type, call⟩

end Symbol

end RelQuery
