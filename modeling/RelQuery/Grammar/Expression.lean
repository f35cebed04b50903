/-
Readers of expressions and types.

Expressions nest inside brackets and after prefix operators. Each
reader takes the reader of what is nested as an argument, and `nested`
ties the knot: every level takes at least one character, so that the
number of characters bounds the depth.
-/
import RelQuery.Grammar.Token
import RelQuery.Grammar.Tree

namespace RelQuery

namespace Reading

/-- A comma. -/
def comma : Reading Unit := token ","

-- ============================================================ types

/-- A named and typed column, given a reader of types. -/
def column (type : Reading TypeExpr) : Reading (String × TypeExpr) := do
  let columnName ← ident
  expect ":"
  return (columnName, ← type)

/-- Columns between commas. -/
def columns (type : Reading TypeExpr) : Reading (List (String × TypeExpr)) :=
  separated comma (column type)

/-- A type with at most the given depth. -/
def typeWithin : Nat → Reading TypeExpr
  | 0 => missing .type
  | depth + 1 => do
    let start ← mark
    if ← found (keyword "tup") then
      expect "\x7b"
      let cs ← columns (typeWithin depth)
      close "\x7d"
      return .tuple cs
    else if ← found (keyword "rel") then
      expect "\x7b"
      let cs ← columns (typeWithin depth)
      close "\x7d"
      return .relation cs
    else
      return .named (← required .type ident) start

/-- A type. -/
def type : Reading TypeExpr := bounded typeWithin

-- =========================================== readers of what nests

/-- The readers that an expression hands to what is nested in it. -/
structure Nested where
  expression : Reading Expr
  /-- An operand of an infix chain. -/
  operand : Reading Expr

/-- A nested expression that has to be there. -/
def Nested.inner (n : Nested) : Reading Expr :=
  required .expression n.expression

/-- `name := value`. -/
def binding (n : Nested) : Reading Binding := do
  let bound ← ident
  expect ":="
  return ⟨bound, ← n.inner⟩

/-- Bindings between commas. -/
def bindings (n : Nested) : Reading (List Binding) :=
  separated comma (binding n)

-- ====================================================== field lists

/-- A key of an ordering: `[%][-]name`. -/
def orderKey : Reading OrderKey := do
  let start ← mark
  let grouped ← found (token "%")
  let descending ← found (token "-")
  return ⟨← name, descending, grouped, start⟩

/-- An entry of a field list, either ordering keys or a field, added to
the list. -/
def fieldEntry (n : Nested) (list : FieldList) : Reading FieldList := do
  let start ← mark
  if ← found (token "$") then
    expect "("
    let keys ← separated1 comma orderKey
    close ")"
    return { list with order := list.order ++ keys }
  else
    let field ← name
    if ← found (token ":=") then
      let value ← n.inner
      return { list with entries := list.entries ++ [.computed field start value] }
    else
      return { list with entries := list.entries ++ [.plain field start] }

/-- Entries between commas, at most the given number. -/
def fieldEntries (n : Nested) : Nat → FieldList → Reading FieldList
  | 0, list => return list
  | fuel + 1, list => do
    let list ← fieldEntry n list
    if ← found comma then fieldEntries n fuel list else return list

/-- What stands between the braces of a field list. -/
def fieldList (n : Nested) : Reading FieldList := do
  let star ← found (token "*")
  let allBut ← if star then pure true else found (keyword "allbut")
  if allBut then
    let _ ← found comma
  let list : FieldList := ⟨allBut, [], []⟩
  if (← ahead).head? == some '}' then return list
  else bounded fun fuel => fieldEntries n fuel list

-- ======================================================== primaries

/-- Whether `name :` stands ahead, but not `name :=`. -/
def columnAhead : Reading Bool := fun c =>
  match ident c with
  | .ok (_, after) =>
    let rest := after.skip.rest
    .ok (rest.head? == some ':' && !Text.startsWith [':', '='] rest, c)
  | .error _ => .ok (false, c)

/-- Further rows of a table, at most the given number. -/
def rowsRest (n : Nested) : Nat → Reading (List (List Binding))
  | 0 => return []
  | fuel + 1 => do
    if ← found comma then
      expect "\x7b"
      let row ← bindings n
      close "\x7d"
      return row :: (← rowsRest n fuel)
    else return []

/-- A row, a table or an empty table, from its opening brace. -/
def braces (n : Nested) (start : Nat) : Reading Expr := do
  token "\x7b"
  match (← ahead).head? with
  | some '}' => do
    token "\x7d"
    return .row start []
  | some '{' => do
    token "\x7b"
    if ← columnAhead then
      let cs ← separated1 comma (column type)
      close "\x7d"
      close "\x7d"
      return .emptyTable start cs
    else
      let first ← bindings n
      close "\x7d"
      let rest ← bounded (rowsRest n)
      close "\x7d"
      return .table start (first :: rest)
  | _ => do
    let bs ← bindings n
    close "\x7d"
    return .row start bs

/-- The arguments of a call, from after its parenthesis. -/
def arguments (n : Nested) : Reading (List Expr) := do
  if (← ahead).head? == some ')' then
    token ")"
    return []
  else
    let args ← separated1 comma n.inner
    close ")"
    return args

/-- `name :=` at the start of a binding. -/
def boundName : Reading String := do
  let bound ← ident
  token ":="
  return bound

/-- The bindings of a block, at most the given number. -/
def blockBindings (n : Nested) : Nat → Reading (List Binding)
  | 0 => return []
  | fuel + 1 => do
    match ← optional boundName with
    | none => return []
    | some bound => do
      let value ← n.inner
      expect ";"
      return ⟨bound, value⟩ :: (← blockBindings n fuel)

/-- A block, from after `do`. -/
def block (n : Nested) (start : Nat) : Reading Expr := do
  expect "\x7b"
  let bs ← bounded (blockBindings n)
  let body ← n.inner
  close "\x7d"
  return .block start bs body

/-- A fold, from after its keyword. -/
def fold (n : Nested) (start : Nat) : Reading Expr := do
  expect "("
  let op ← required .operator infixOperator
  expect ","
  let arg ← n.inner
  close ")"
  return .fold start op arg

/-- What begins with a word: constants, folds, blocks, calls, names. -/
def word (n : Nested) (start : Nat) : Reading Expr := do
  if ← found (keyword "true") then return .bool start true
  else if ← found (keyword "false") then return .bool start false
  else if ← found (keyword "fold") then fold n start
  else if ← found (keyword "do") then block n start
  else
    match ← optional ident with
    | none => do
      let _ ← mark
      missing .expression
    | some id =>
      if ← found (token "(") then return .call start id (← arguments n)
      else return .name start id

/-- An expression without operators around it. -/
def primary (n : Nested) : Reading Expr := do
  let start ← mark
  match ← ahead with
  | '\'' :: _ => return .text start (String.ofList (← quoted))
  | 't' :: '\'' :: _ => return .time start (← time)
  | '@' :: _ => do
    token "@"
    return .currentRow start
  | '(' :: _ => do
    token "("
    let inner ← n.inner
    close ")"
    return inner
  | '{' :: _ => braces n start
  | c :: _ => if c.isDigit then return .number start (← number) else word n start
  | [] => word n start

-- ======================================================== operators

/-- What follows a point after `base`. -/
def selection (n : Nested) (start : Nat) (base : Expr) : Reading Expr := do
  if ← found (token "\x7b") then
    let list ← fieldList n
    close "\x7d"
    return .fields start base list
  else if ← found (keyword "where") then
    expect "("
    let predicate ← n.inner
    close ")"
    return .restrict start base predicate
  else return .member start base (← name)

/-- Selections after `base`, at most the given number. -/
def selections (n : Nested) : Nat → Expr → Reading Expr
  | 0, base => return base
  | fuel + 1, base => do
    let start ← mark
    if ← found (token ".") then selections n fuel (← selection n start base) else return base

/-- A primary with its selections. -/
def postfixed (n : Nested) : Reading Expr := do
  let base ← primary n
  bounded fun fuel => selections n fuel base

/-- An operand: prefix operators, then a primary with selections. -/
def operandOf (n : Nested) : Reading Expr := do
  let start ← mark
  if ← found (keyword "not") then return .not start (← required .expression n.operand)
  else if ← found (token "-") then return .neg start (← required .expression n.operand)
  else postfixed n

/-- Further steps of an infix chain, at most the given number. -/
def steps (operand : Reading Expr) : Nat → Reading (List Step)
  | 0 => return []
  | fuel + 1 => do
    let start ← mark
    match ← optional infixOperator with
    | none => return []
    | some op => do
      let rhs ← required .expression operand
      return ⟨op, start, rhs⟩ :: (← steps operand fuel)

/-- An infix chain; a single operand stands for itself. -/
def expressionOf (n : Nested) : Reading Expr := do
  let start ← mark
  let first ← operandOf n
  match ← bounded (steps (operandOf n)) with
  | [] => return first
  | rest => return .chain start first rest

/-- The readers for expressions nested at most to the given depth. -/
def nested : Nat → Nested
  | 0 => ⟨missing .expression, missing .expression⟩
  | depth + 1 => ⟨expressionOf (nested depth), operandOf (nested depth)⟩

/-- An expression. -/
def expression : Reading Expr :=
  bounded fun depth => expressionOf (nested depth)

end Reading

end RelQuery
