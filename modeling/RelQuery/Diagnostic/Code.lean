/-
Numbered error codes with a description and, for some, advice.

Codes come in ranges: 1 to 99 for text that does not read, 100 to 199
for meaning, 200 to 299 for running programs, 300 to 399 for defects
of the compiler and 400 to 499 for the host system.
-/
import RelQuery.Text.Blank

namespace RelQuery

/-- The number that identifies a kind of error. -/
structure Code where
  number : Nat
  deriving DecidableEq, Repr, Inhabited

namespace Code

/-- The written form: `RQ` and at least four digits. -/
def text (code : Code) : String :=
  "RQ" ++ Text.padded 4 code.number

-- =================================================== reading a text

def badForm : Code := ⟨1⟩
def endOfText : Code := ⟨2⟩
def openString : Code := ⟨4⟩
def badNumber : Code := ⟨5⟩
def badTime : Code := ⟨6⟩
def unclosed : Code := ⟨7⟩
def noExpression : Code := ⟨8⟩
def unknownDirective : Code := ⟨9⟩
def trailingText : Code := ⟨10⟩

-- ========================================================== meaning

def undefinedName : Code := ⟨100⟩
def undefinedType : Code := ⟨101⟩
def duplicateDefinition : Code := ⟨102⟩
def typeMismatch : Code := ⟨103⟩
def argumentCount : Code := ⟨104⟩
def duplicateColumn : Code := ⟨105⟩
def headingMismatch : Code := ⟨106⟩
def badOverload : Code := ⟨107⟩
def returnMismatch : Code := ⟨108⟩
def badAssignment : Code := ⟨109⟩
def strayAggregate : Code := ⟨110⟩
def strayWindow : Code := ⟨111⟩
def unknownColumn : Code := ⟨112⟩
def notCallable : Code := ⟨113⟩
def badFieldList : Code := ⟨114⟩

-- ============================================== running and defects

def evaluationFailed : Code := ⟨200⟩
def divisionByZero : Code := ⟨201⟩
def unsupported : Code := ⟨202⟩
def defect : Code := ⟨300⟩
def placeholderLeft : Code := ⟨301⟩
def stackUnderflow : Code := ⟨302⟩
def loadFailed : Code := ⟨401⟩
def saveFailed : Code := ⟨402⟩
def badConfiguration : Code := ⟨403⟩

-- ========================================================= the table

/-- What a code stands for. -/
def description (code : Code) : String :=
  match code.number with
  | 1 => "Syntax error"
  | 2 => "Unexpected end of input"
  | 3 => "Invalid literal"
  | 4 => "Unterminated string literal"
  | 5 => "Invalid number format"
  | 6 => "Invalid time format"
  | 7 => "Missing closing delimiter"
  | 8 => "Expected expression"
  | 9 => "Unknown directive"
  | 10 => "Unexpected trailing input"
  | 100 => "Undefined identifier"
  | 101 => "Undefined type"
  | 102 => "Duplicate definition"
  | 103 => "Type mismatch"
  | 104 => "Wrong argument count"
  | 105 => "Duplicate column"
  | 106 => "Heading mismatch"
  | 107 => "Invalid overload"
  | 108 => "Return type mismatch"
  | 109 => "Illegal assignment"
  | 110 => "Aggregate outside of a grouping context"
  | 111 => "Window operator outside of a transform"
  | 112 => "Unknown column"
  | 113 => "Not callable"
  | 114 => "Invalid field list"
  | 200 => "Evaluation failed"
  | 201 => "Division by zero"
  | 202 => "Unsupported instruction"
  | 300 => "Internal compiler error"
  | 301 => "Unresolved placeholder type"
  | 302 => "Scope stack underflow"
  | 400 => "I/O error"
  | 401 => "Catalog load failed"
  | 402 => "Catalog save failed"
  | 403 => "Configuration error"
  | _ => "Unknown error"

/-- Advice shown with every diagnostic of the code. -/
def help (code : Code) : Option String :=
  match code.number with
  | 6 => some "Time literals look like t'2024-01-31 12:00:00'"
  | 9 => some "Known directives are #trace, #catalog and #exec"
  | 100 => some "Check that the name is a catalog variable, a parameter or a field in scope"
  | 110 => some "Aggregates are only allowed in the fields of a transform"
  | _ => none

end Code

end RelQuery
