/-
The builtin operators and functions.

`links` lists every signature, grouped by name; `operators` gives the
precedence, merge policy and foldability of the infix operators. This
is the only place where either is declared.
-/
import RelQuery.Call.Symbol

namespace RelQuery.Builtin

-- ====================================================== signatures

/-- The arguments `a0`, `a1`, … with the given types. -/
def arguments (types : List DataType) : List Column :=
  types.zipIdx.map fun (t, i) => ⟨"a" ++ toString i, t⟩

/-- A builtin with a fixed number of arguments. -/
def fixed (name : String) (args : List DataType) (returns : DataType) : Signature :=
  { name, returns, args := arguments args, variadic := none, accums := 0, windowed := false
    kind := .fixed }

/-- A builtin that folds over a group. -/
def aggregate (name : String) (args : List DataType) (returns : DataType) (accums : Nat) :
    Signature :=
  { fixed name args returns with accums }

/-- A builtin that looks at neighbouring rows. -/
def window (name : String) (args : List DataType) (returns : DataType) (accums : Nat) :
    Signature :=
  { fixed name args returns with accums, windowed := true }

/-- A builtin with any number of arguments of one type. -/
def variadic (name : String) (element returns : DataType) (kind : CallKind) : Signature :=
  { fixed name [] returns with variadic := some element, kind }

section

open DataType

/-- Every builtin signature. -/
def links : List Signature :=
  [ -- logic
    fixed "or" [bool, bool] bool,
    fixed "xor" [bool, bool] bool,
    fixed "and" [bool, bool] bool,
    fixed "not" [bool] bool,
    -- comparison
    fixed "=" [bool, bool] bool,
    fixed "=" [number, number] bool,
    fixed "=" [text, text] bool,
    fixed "=" [binary, binary] bool,
    fixed "=" [time, time] bool,
    fixed "=" [table, table] bool,
    fixed "=" [row, row] bool,
    fixed "<>" [bool, bool] bool,
    fixed "<>" [number, number] bool,
    fixed "<>" [text, text] bool,
    fixed "<>" [time, time] bool,
    fixed "<>" [table, table] bool,
    fixed "<>" [row, row] bool,
    fixed "<" [number, number] bool,
    fixed "<" [text, text] bool,
    fixed "<" [time, time] bool,
    fixed "<=" [number, number] bool,
    fixed "<=" [text, text] bool,
    fixed "<=" [time, time] bool,
    fixed ">" [number, number] bool,
    fixed ">" [text, text] bool,
    fixed ">" [time, time] bool,
    fixed ">=" [number, number] bool,
    fixed ">=" [text, text] bool,
    fixed ">=" [time, time] bool,
    fixed "sub" [table, table] bool,
    fixed "sup" [table, table] bool,
    -- relations
    fixed "union" [table, table] table,
    fixed "intersect" [table, table] table,
    fixed "minus" [table, table] table,
    fixed "join" [table, table] table,
    fixed "compose" [table, table] table,
    fixed "semijoin" [table, table] table,
    fixed "antijoin" [table, table] table,
    fixed "restrict" [table, code] table,
    variadic "union_all" table table .variadicTable,
    -- arithmetic
    fixed "+" [number, number] number,
    fixed "+" [time, number] time,
    fixed "-" [number, number] number,
    fixed "-" [time, number] time,
    fixed "&" [text, text] text,
    fixed "*" [number, number] number,
    fixed "/" [number, number] number,
    fixed "div" [number, number] number,
    fixed "mod" [number, number] number,
    fixed "^" [number, number] number,
    fixed "neg" [number] number,
    -- scalar functions
    fixed "length" [text] number,
    fixed "upper" [text] text,
    fixed "lower" [text] text,
    fixed "trim" [text] text,
    fixed "text" [any] text,
    fixed "degree" [table] number,
    fixed "degree" [row] number,
    fixed "card" [table] number,
    fixed "succ" [ordinal] unknown,
    fixed "pred" [ordinal] unknown,
    fixed "clamp" [ordered, ordered, ordered] unknown,
    variadic "concat" text text .variadic,
    -- aggregates
    aggregate "count" [] number 1,
    aggregate "sum" [number] number 1,
    aggregate "avg" [number] number 2,
    aggregate "max" [ordered] unknown 1,
    aggregate "min" [ordered] unknown 1,
    { aggregate "fold" [any] unknown 1 with kind := .fold },
    -- windows
    window "ord" [] number 1,
    window "ordg" [] number 1,
    window "lag" [any, number] unknown 0,
    window "lead" [any, number] unknown 0,
    window "nth" [any, number] unknown 0 ]

end

-- ======================================================== operators

/-- What makes a builtin an infix operator. -/
structure Operator where
  name : String
  precedence : Nat
  merge : Option Merge
  foldable : Bool

/-- The infix operators. -/
def operators : List Operator :=
  [ ⟨"or", 1, none, true⟩,
    ⟨"xor", 1, none, true⟩,
    ⟨"and", 2, none, true⟩,
    ⟨"=", 4, some .compare, false⟩,
    ⟨"<>", 4, some .compare, false⟩,
    ⟨"<", 4, some .compare, false⟩,
    ⟨"<=", 4, some .compare, false⟩,
    ⟨">", 4, some .compare, false⟩,
    ⟨">=", 4, some .compare, false⟩,
    ⟨"sub", 4, some .compare, false⟩,
    ⟨"sup", 4, some .compare, false⟩,
    ⟨"union", 5, some .same, true⟩,
    ⟨"intersect", 5, some .same, true⟩,
    ⟨"minus", 5, some .same, false⟩,
    ⟨"join", 5, some .join, true⟩,
    ⟨"compose", 5, some .compose, false⟩,
    ⟨"semijoin", 5, some .left, false⟩,
    ⟨"antijoin", 5, some .left, false⟩,
    ⟨"+", 6, none, true⟩,
    ⟨"-", 6, none, false⟩,
    ⟨"&", 6, none, true⟩,
    ⟨"*", 7, none, true⟩,
    ⟨"/", 7, none, false⟩,
    ⟨"div", 7, none, false⟩,
    ⟨"mod", 7, none, false⟩,
    ⟨"^", 8, none, false⟩ ]

-- ========================================================== symbols

/-- The symbol of a builtin name, with all its links. -/
def symbolOf (name : String) : Symbol :=
  let base := Symbol.callable name .operator (links.filter (·.name == name))
  match operators.find? (·.name == name) with
  | some op => { base with precedence := op.precedence, merge := op.merge, foldable := op.foldable }
  | none => base

/-- The builtin names, in table order. -/
def names : List String :=
  (links.map (·.name)).eraseDups

/-- The builtin symbols, in table order. -/
def symbols : List Symbol :=
  names.map symbolOf

/-- The builtin with the given name. -/
def find? (name : String) : Option Symbol :=
  symbols.find? (·.name == name)

/-- The precedence of an infix operator. -/
def precedence? (name : String) : Option Nat :=
  (find? name).bind fun s => if s.isInfix then some s.precedence else none

end RelQuery.Builtin
