/-
Tokens: names, operators, numbers, texts and times.

Every token may have blanks and comments before it.
-/
import RelQuery.Grammar.Reading
import RelQuery.Number.Decimal
import RelQuery.Time.Moment

namespace RelQuery

namespace Reading

-- ==================================================== fixed tokens

/-- A fixed token. -/
def token (t : String) : Reading Unit := fun c =>
  let c := c.skip
  match Text.after? t.toList c.rest with
  | some rest => .ok ((), c.advance (Text.byteLength t.toList) rest)
  | none => .error { cut := false, place := c }

/-- Characters that may stand in a name. -/
def isNameChar (c : Char) : Bool :=
  c.isAlphanum || c == '_'

/-- Characters that may begin a name. -/
def isNameStart (c : Char) : Bool :=
  c.isAlpha || c == '_'

/-- A word that no further name character follows. -/
def keyword (w : String) : Reading Unit := fun c =>
  let c := c.skip
  match Text.after? w.toList c.rest with
  | some rest =>
    if rest.head?.any isNameChar then .error { cut := false, place := c }
    else .ok ((), c.advance (Text.byteLength w.toList) rest)
  | none => .error { cut := false, place := c }

/-- A closing token, required. -/
def close (t : String) : Reading Unit :=
  required .closing (token t)

/-- Any other token, required. -/
def expect (t : String) : Reading Unit :=
  wanting t (token t)

-- ============================================================ names

/-- Words that are never names. -/
def reserved : List String :=
  ["and", "or", "xor", "not", "sub", "sup", "union", "intersect", "minus", "join", "compose",
    "semijoin", "antijoin", "div", "mod", "true", "false", "def", "type", "do", "where", "fold",
    "allbut", "tup", "rel"]

/-- The words among the infix operators. -/
def wordOperators : List String :=
  ["or", "xor", "and", "sub", "sup", "union", "intersect", "minus", "join", "compose", "semijoin",
    "antijoin", "div", "mod"]

/-- The signs among the infix operators, longer ones first. -/
def signOperators : List String :=
  ["<=", ">=", "<>", "=", "<", ">", "+", "-", "&", "*", "/", "^"]

/-- The longest name at the front of a text; empty when there is
none. -/
def leadingName (text : List Char) : List Char :=
  if text.head?.any isNameStart then text.takeWhile isNameChar else []

/-- A name that is not reserved. -/
def ident : Reading String := fun c =>
  let c := c.skip
  let word := leadingName c.rest
  let name := String.ofList word
  if word.isEmpty || reserved.contains name then .error { cut := false, place := c }
  else .ok (name, c.advance word.length (c.rest.drop word.length))

/-- A name, required. -/
def name : Reading String :=
  required .name ident

-- ======================================================== operators

/-- The first of the given signs that a text begins with. -/
def leadingSign? (text : List Char) : List String → Option String
  | [] => none
  | sign :: signs =>
    if Text.startsWith sign.toList text then some sign else leadingSign? text signs

/-- The infix operator at the front of a text. The arrow of a
definition and the sign of assignment are none. -/
def leadingOperator? (text : List Char) : Option String :=
  if Text.startsWith [':', '='] text || Text.startsWith ['=', '>'] text then none
  else
    match leadingSign? text signOperators with
    | some sign => some sign
    | none =>
      let word := String.ofList (leadingName text)
      if wordOperators.contains word then some word else none

/-- An infix operator. -/
def infixOperator : Reading String := fun c =>
  let c := c.skip
  match leadingOperator? c.rest with
  | some op => .ok (op, c.advance op.length (c.rest.drop op.length))
  | none => .error { cut := false, place := c }

-- ========================================================= literals

/-- The digits of a number at the front of a text, with a point only
when a digit follows it. -/
def leadingNumber (text : List Char) : List Char :=
  let whole := text.takeWhile Char.isDigit
  match text.dropWhile Char.isDigit with
  | '.' :: rest =>
    let fraction := rest.takeWhile Char.isDigit
    if fraction.isEmpty then whole else whole ++ '.' :: fraction
  | _ => whole

/-- A number; one that is out of range is refused. -/
def number : Reading Decimal := fun c =>
  let c := c.skip
  let digits := leadingNumber c.rest
  if digits.isEmpty then .error { cut := false, place := c }
  else
    match Decimal.read? digits with
    | some d => .ok (d, c.advance digits.length (c.rest.drop digits.length))
    | none => refuse c .number c

/-- The text up to its closing quote, after which stands `rest`; a
quote written twice is part of the text. Also the bytes taken. -/
def quotedRest : List Char → Option (List Char × Nat × List Char)
  | [] => none
  | '\'' :: '\'' :: rest => (quotedRest rest).map fun (s, n, r) => ('\'' :: s, n + 2, r)
  | c :: rest =>
    if c == '\'' then some ([], 1, rest)
    else (quotedRest rest).map fun (s, n, r) => (c :: s, n + c.utf8Size, r)

/-- A text in quotes; one without its closing quote is refused. -/
def quoted : Reading (List Char) := fun c =>
  let c := c.skip
  match c.rest with
  | '\'' :: rest =>
    match quotedRest rest with
    | some (s, n, r) => .ok (s, c.advance (n + 1) r)
    | none => refuse c .closingQuote c
  | _ => .error { cut := false, place := c }

/-- A time: `t` and a quoted text; one that is not a moment is
refused. -/
def time : Reading Moment := do
  let _ ← mark
  let start ← get
  token "t"
  match Moment.read? (← quoted) with
  | some m => return m
  | none => refuse start .time

end Reading

end RelQuery
