/-
Failures as the compiler passes them on.

A failure is a cause with its code and message, or a list of them.
Everything but a defect of the compiler itself is restartable: it
costs one statement, and the next one is compiled as usual.
-/
import RelQuery.Diagnostic.Basic

namespace RelQuery

/-- The stage a failure belongs to. -/
inductive FailureKind where
  /-- The text does not match the grammar. -/
  | parse
  /-- Names or types do not fit. -/
  | semantic
  /-- The evaluator raised a fault. -/
  | program
  /-- A defect of the compiler; aborts the rest of the input. -/
  | internal
  /-- The catalog, the configuration or the host failed. -/
  | system
  deriving DecidableEq, Repr, Inhabited

/-- Whether failures of this kind point into the source text. -/
def FailureKind.isLocated : FailureKind → Bool
  | .parse | .semantic | .internal => true
  | .program | .system => false

/-- A failure, or several reported together. -/
inductive Failure where
  | single (kind : FailureKind) (code : Code) (message : String) (location : Option Location)
  | several (failures : List Failure)
  deriving Repr, Inhabited

namespace Failure

/-- A failure of the given kind, not located. -/
def make (kind : FailureKind) (code : Code) (message : String) : Failure :=
  .single kind code message none

/-- The code; several failures show the first one's. -/
def code : Failure → Code
  | .single _ code _ _ => code
  | .several [] => Code.defect
  | .several (first :: _) => first.code

mutual

/-- The bare message; several messages are joined by `; `. -/
def message : Failure → String
  | .single _ _ message _ => message
  | .several failures => String.intercalate "; " (messages failures)

/-- The messages of a list of failures, in order. -/
def messages : List Failure → List String
  | [] => []
  | f :: rest => f.message :: messages rest

end

/-- Where the failure points; several failures show the first one's
place. -/
def location : Failure → Option Location
  | .single kind _ _ location => if kind.isLocated then location else none
  | .several [] => none
  | .several (first :: _) => first.location

/-- The written form. -/
def text : Failure → String
  | .single .internal code message _ => code.text ++ ": internal error: " ++ message
  | .single _ code message _ => code.text ++ ": " ++ message
  | .several failures => "Multiple errors: " ++ toString failures.length

/-- Locates a failure that can be located and is not yet. -/
def orAt (at_ : Location) : Failure → Failure
  | .single kind code message none =>
    .single kind code message (if kind.isLocated then some at_ else none)
  | failure => failure

mutual

/-- Whether the next statement may be compiled. -/
def isRestartable : Failure → Bool
  | .single kind _ _ _ => kind != .internal
  | .several failures => allRestartable failures

/-- Whether every failure of a list is restartable. -/
def allRestartable : List Failure → Bool
  | [] => true
  | f :: rest => f.isRestartable && allRestartable rest

end

/-- The note that stands for a failure after the first. -/
def note (failure : Failure) : Note :=
  ⟨failure.message, failure.location⟩

/-- The diagnostic that reports a failure. Advice comes with the code;
of several failures all but the first become notes. -/
def diagnostic : Failure → Diagnostic
  | .single kind code message location =>
    { severity := .error
      code
      message := if kind = .internal then "internal error: " ++ message else message
      location := (Failure.single kind code message location).location
      help := code.help
      related := [] }
  | .several [] => .error Code.defect "empty error list"
  | .several (first :: rest) =>
    let d := first.diagnostic
    { d with related := d.related ++ rest.map note }

end Failure

end RelQuery
