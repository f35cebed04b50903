/-
Reading a whole sentence, and the errors of a text that is none.

The code of an error follows from the innermost label of the miss.
Literals and closing delimiters have codes of their own; a miss at the
end of the text is always reported as such.
-/
import RelQuery.Diagnostic.Code
import RelQuery.Grammar.Expression

namespace RelQuery

namespace Reading

/-- An expression that has to be there. -/
def requiredExpression : Reading Expr :=
  required .expression expression

/-- A type definition, from after its keyword. -/
def typeDefinition (start : Nat) : Reading Sentence := do
  let typeName ← name
  let supertype ← do
    if ← found (token ":") then
      let place ← mark
      pure (some (← name, place))
    else pure none
  expect "("
  let components ← columns type
  close ")"
  return .typeDef start typeName supertype components

/-- A function definition, from after its keyword. -/
def definition (start : Nat) : Reading Sentence := do
  let functionName ← name
  expect "("
  let params ← columns type
  close ")"
  let returns ← do
    if ← found (token ":") then pure (some (← type)) else pure none
  expect "=>"
  return .define start functionName params returns (← requiredExpression)

/-- A sentence. -/
def sentence : Reading Sentence := do
  let start ← mark
  if ← found (keyword "type") then typeDefinition start
  else if ← found (keyword "def") then definition start
  else
    match ← optional boundName with
    | some target => return .assign start target (← requiredExpression)
    | none => return .expression (← expression)

end Reading

/-- Why a text is not a sentence. -/
structure ReadError where
  code : Code
  message : String
  /-- Byte offset in the text. -/
  offset : Nat
  deriving DecidableEq, Repr

/-- The written form. -/
def ReadError.text (e : ReadError) : String :=
  e.code.text ++ ": " ++ e.message

/-- Code and message of a miss; `atEnd` tells that no token follows. -/
def Miss.describe (m : Miss) (atEnd : Bool) : Code × String :=
  match m.label with
  | some .number => (Code.badNumber, "invalid number literal")
  | some .closingQuote => (Code.openString, "unterminated string literal")
  | some .time => (Code.badTime, "invalid time literal")
  | some .closing =>
    (Code.unclosed,
      if atEnd then "missing closing delimiter at end of statement" else "missing closing delimiter")
  | label =>
    if atEnd then (Code.endOfText, "unexpected end of statement")
    else
      match m.wanted, label with
      | some token, _ => (Code.badForm, "expected `" ++ token ++ "`")
      | none, some .expression => (Code.noExpression, "expected an expression")
      | none, some label => (Code.badForm, "expected " ++ label.write)
      | none, none => (Code.badForm, "syntax error")

/-- The error for text that follows a sentence. It shows at most
sixteen characters, up to the next blank. -/
def trailing (c : Cursor) : ReadError :=
  let shown := String.ofList ((c.rest.takeWhile (!Text.isBlank ·)).take 16)
  ⟨Code.trailingText, s!"unexpected '{shown}' after the end of the statement", c.offset⟩

/-- Reads a text that is one sentence. -/
def Sentence.read (text : List Char) : Except ReadError Sentence :=
  match Reading.sentence ⟨0, text⟩ with
  | .ok (s, c) =>
    let c := c.skip
    if c.rest.isEmpty then .ok s else .error (trailing c)
  | .error m =>
    let place := m.place.skip
    let (code, message) := m.describe place.rest.isEmpty
    .error ⟨code, message, place.offset⟩

end RelQuery
