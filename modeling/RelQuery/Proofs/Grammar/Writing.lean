/-
Writing the tree of a sentence out as tokens.

A tree has one written form up to two choices, the word or the sign for
all columns but some and whether a comma follows it (`Style`).
Everything else is fixed by the grammar: an operand that is a chain and
a base that is no primary with selections stand in parentheses, and
the ordering keys of a field list are its first entry. Tokens are
separated by one space, so that none of them can be taken together
with the next.

Not every tree is written so that it can be read: names have to be
names, operators infix operators, numbers have no sign, and some lists
must not be empty (`IsWritable`). Marks are not written; two trees are
the same sentence when they agree without them (`unmarked`).
-/
import RelQuery.Grammar.Token
import RelQuery.Grammar.Tree
import RelQuery.Value.Basic

namespace RelQuery

-- ============================================================ tokens

namespace Text

/-- Tokens with one space between them. -/
def spaced : List String → List Char
  | [] => []
  | [t] => t.toList
  | t :: ts => t.toList ++ ' ' :: spaced ts

/-- Items with a comma between them. -/
def commas : List (List String) → List String
  | [] => []
  | [item] => item
  | item :: rest => item ++ "," :: commas rest

/-- Tokens in parentheses, where these are needed. -/
def grouped (needed : Bool) (tokens : List String) : List String :=
  if needed then "(" :: tokens ++ [")"] else tokens

end Text

open Text

/-- What the grammar leaves to the writer of a field list that begins
with all columns. -/
structure Style where
  /-- `allbut` instead of `*`. -/
  word : Bool
  /-- A comma before the first entry. -/
  comma : Bool
  deriving DecidableEq, Repr

/-- The beginning of a field list. -/
def Style.allBut (style : Style) : List String :=
  (if style.word then "allbut" else "*") :: if style.comma then [","] else []

-- ============================================================ types

mutual

/-- The tokens of a written type. -/
def TypeExpr.tokens : TypeExpr → List String
  | .named name _ => [name]
  | .tuple columns => "tup" :: "\x7b" :: commas (columnTokens columns) ++ ["\x7d"]
  | .relation columns => "rel" :: "\x7b" :: commas (columnTokens columns) ++ ["\x7d"]

/-- The tokens of written columns, one by one. -/
def columnTokens : List (String × TypeExpr) → List (List String)
  | [] => []
  | (name, type) :: rest => (name :: ":" :: type.tokens) :: columnTokens rest

end

mutual

/-- A written type with its marks removed. -/
def TypeExpr.unmarked : TypeExpr → TypeExpr
  | .named name _ => .named name 0
  | .tuple columns => .tuple (unmarkedColumns columns)
  | .relation columns => .relation (unmarkedColumns columns)

def unmarkedColumns : List (String × TypeExpr) → List (String × TypeExpr)
  | [] => []
  | (name, type) :: rest => (name, type.unmarked) :: unmarkedColumns rest

end

-- ====================================================== expressions

/-- A chain of infix operators. -/
def Expr.isChain : Expr → Bool
  | .chain .. => true
  | _ => false

/-- A primary, with or without selections. -/
def Expr.isPostfixed : Expr → Bool
  | .chain .. | .not .. | .neg .. => false
  | _ => true

/-- A key of an ordering. -/
def OrderKey.tokens (key : OrderKey) : List String :=
  (if key.grouped then ["%"] else []) ++ (if key.descending then ["-"] else []) ++ [key.name]

/-- The entry of a field list that holds its ordering keys. -/
def orderTokens (keys : List OrderKey) : List (List String) :=
  if keys.isEmpty then [] else ["$" :: "(" :: commas (keys.map OrderKey.tokens) ++ [")"]]

section Tokens

variable (style : Style)

mutual

/-- The tokens of an expression. -/
def Expr.tokens : Expr → List String
  | .number _ value => [value.write]
  | .text _ value => [Value.quote value]
  | .bool _ value => [if value then "true" else "false"]
  | .time _ value => ["t" ++ Value.quote value.write]
  | .name _ name => [name]
  | .currentRow _ => ["@"]
  | .call _ name args => name :: "(" :: commas (argumentTokens args) ++ [")"]
  | .fold _ op arg => "fold" :: "(" :: op :: "," :: arg.tokens ++ [")"]
  | .chain _ first steps => grouped first.isChain first.tokens ++ stepTokens steps
  | .not _ arg => "not" :: grouped arg.isChain arg.tokens
  | .neg _ arg => "-" :: grouped arg.isChain arg.tokens
  | .member _ base name => grouped (!base.isPostfixed) base.tokens ++ [".", name]
  | .restrict _ base predicate =>
    grouped (!base.isPostfixed) base.tokens ++ "." :: "where" :: "(" :: predicate.tokens ++ [")"]
  | .fields _ base ⟨allBut, order, entries⟩ =>
    grouped (!base.isPostfixed) base.tokens ++ "." :: "\x7b" ::
      (if allBut then style.allBut else []) ++ commas (orderTokens order ++ entryTokens entries) ++
        ["\x7d"]
  | .row _ bindings => "\x7b" :: commas (bindingTokens bindings) ++ ["\x7d"]
  | .table _ rows => "\x7b" :: commas (rowTokens rows) ++ ["\x7d"]
  | .emptyTable _ columns => "\x7b" :: "\x7b" :: commas (columnTokens columns) ++ ["\x7d", "\x7d"]
  | .block _ bindings body => "do" :: "\x7b" :: localTokens bindings ++ body.tokens ++ ["\x7d"]

/-- The tokens of arguments, one by one. -/
def argumentTokens : List Expr → List (List String)
  | [] => []
  | e :: rest => e.tokens :: argumentTokens rest

/-- The tokens of the steps of a chain. -/
def stepTokens : List Step → List String
  | [] => []
  | ⟨op, _, operand⟩ :: rest => op :: grouped operand.isChain operand.tokens ++ stepTokens rest

/-- The tokens of bindings, one by one. -/
def bindingTokens : List Binding → List (List String)
  | [] => []
  | ⟨name, value⟩ :: rest => (name :: ":=" :: value.tokens) :: bindingTokens rest

/-- The tokens of the rows of a table, one by one. -/
def rowTokens : List (List Binding) → List (List String)
  | [] => []
  | row :: rest => ("\x7b" :: commas (bindingTokens row) ++ ["\x7d"]) :: rowTokens rest

/-- The tokens of the entries of a field list, one by one. -/
def entryTokens : List FieldEntry → List (List String)
  | [] => []
  | .plain name _ :: rest => [name] :: entryTokens rest
  | .computed name _ value :: rest => (name :: ":=" :: value.tokens) :: entryTokens rest

/-- The tokens of the bindings of a block. -/
def localTokens : List Binding → List String
  | [] => []
  | ⟨name, value⟩ :: rest => name :: ":=" :: value.tokens ++ ";" :: localTokens rest

end

/-- The tokens of a sentence. -/
def Sentence.tokens : Sentence → List String
  | .typeDef _ name supertype components =>
    "type" :: name :: (supertype.elim [] fun s => [":", s.1]) ++
      "(" :: commas (columnTokens components) ++ [")"]
  | .define _ name params returns body =>
    "def" :: name :: "(" :: commas (columnTokens params) ++
      ")" :: (returns.elim [] fun t => ":" :: t.tokens) ++ "=>" :: body.tokens style
  | .assign _ name value => name :: ":=" :: value.tokens style
  | .expression value => value.tokens style

/-- The text of a sentence. -/
def Sentence.write (s : Sentence) : List Char :=
  spaced (s.tokens style)

end Tokens

/-- A key with its mark removed. -/
def OrderKey.unmarked (key : OrderKey) : OrderKey := { key with mark := 0 }

mutual

/-- An expression with its marks removed. -/
def Expr.unmarked : Expr → Expr
  | .number _ value => .number 0 value
  | .text _ value => .text 0 value
  | .bool _ value => .bool 0 value
  | .time _ value => .time 0 value
  | .name _ name => .name 0 name
  | .currentRow _ => .currentRow 0
  | .call _ name args => .call 0 name (unmarkedArguments args)
  | .fold _ op arg => .fold 0 op arg.unmarked
  | .chain _ first steps => .chain 0 first.unmarked (unmarkedSteps steps)
  | .not _ arg => .not 0 arg.unmarked
  | .neg _ arg => .neg 0 arg.unmarked
  | .member _ base name => .member 0 base.unmarked name
  | .restrict _ base predicate => .restrict 0 base.unmarked predicate.unmarked
  | .fields _ base ⟨allBut, order, entries⟩ =>
    .fields 0 base.unmarked ⟨allBut, order.map OrderKey.unmarked, unmarkedEntries entries⟩
  | .row _ bindings => .row 0 (unmarkedBindings bindings)
  | .table _ rows => .table 0 (unmarkedRows rows)
  | .emptyTable _ columns => .emptyTable 0 (unmarkedColumns columns)
  | .block _ bindings body => .block 0 (unmarkedBindings bindings) body.unmarked

def unmarkedArguments : List Expr → List Expr
  | [] => []
  | e :: rest => e.unmarked :: unmarkedArguments rest

def unmarkedSteps : List Step → List Step
  | [] => []
  | ⟨op, _, operand⟩ :: rest => ⟨op, 0, operand.unmarked⟩ :: unmarkedSteps rest

def unmarkedBindings : List Binding → List Binding
  | [] => []
  | ⟨name, value⟩ :: rest => ⟨name, value.unmarked⟩ :: unmarkedBindings rest

def unmarkedRows : List (List Binding) → List (List Binding)
  | [] => []
  | row :: rest => unmarkedBindings row :: unmarkedRows rest

def unmarkedEntries : List FieldEntry → List FieldEntry
  | [] => []
  | .plain name _ :: rest => .plain name 0 :: unmarkedEntries rest
  | .computed name _ value :: rest => .computed name 0 value.unmarked :: unmarkedEntries rest

end

/-- A sentence with its marks removed. -/
def Sentence.unmarked : Sentence → Sentence
  | .typeDef _ name supertype components =>
    .typeDef 0 name (supertype.map fun s => (s.1, 0)) (unmarkedColumns components)
  | .define _ name params returns body =>
    .define 0 name (unmarkedColumns params) (returns.map TypeExpr.unmarked) body.unmarked
  | .assign _ name value => .assign 0 name value.unmarked
  | .expression value => .expression value.unmarked

-- ========================================================= writable

/-- A word of name characters, reserved or not. -/
def isWord (x : String) : Bool :=
  x.toList.head?.any Reading.isNameStart && x.toList.all Reading.isNameChar

/-- An identifier that is not reserved. -/
def isName (x : String) : Bool :=
  isWord x && !Reading.reserved.contains x

/-- An infix operator. -/
def isInfix (op : String) : Bool :=
  Reading.signOperators.contains op || Reading.wordOperators.contains op

mutual

/-- A type in which only names stand for names. -/
def TypeExpr.isWritable : TypeExpr → Bool
  | .named name _ => isName name
  | .tuple columns => writableColumns columns
  | .relation columns => writableColumns columns

/-- The names of columns are names and their types can be written. -/
def writableColumns : List (String × TypeExpr) → Bool
  | [] => true
  | (name, type) :: rest => isName name && type.isWritable && writableColumns rest

end

/-- The name of an entry. -/
def FieldEntry.name : FieldEntry → String
  | .plain name _ => name
  | .computed name _ _ => name

/-- The value of an entry, if it has one of its own. -/
def FieldEntry.value? : FieldEntry → Option Expr
  | .plain .. => none
  | .computed _ _ value => some value

/-- The expressions right below an expression. -/
def Expr.parts : Expr → List Expr
  | .call _ _ args => args
  | .fold _ _ arg | .not _ arg | .neg _ arg => [arg]
  | .chain _ first steps => first :: steps.map (·.operand)
  | .member _ base _ => [base]
  | .restrict _ base predicate => [base, predicate]
  | .fields _ base list => base :: list.entries.filterMap FieldEntry.value?
  | .row _ bindings => bindings.map (·.value)
  | .table _ rows => rows.flatten.map (·.value)
  | .block _ bindings body => body :: bindings.map (·.value)
  | _ => []

/-- Whether what an expression adds to its parts can be written. -/
def Expr.isSound : Expr → Bool
  | .number _ value => !value.negative
  | .time .. => false
  | .name _ x | .call _ x _ | .member _ _ x => isName x
  | .fold _ op _ => isInfix op
  | .chain _ _ steps => !steps.isEmpty && steps.all (isInfix ·.op)
  | .fields _ _ list => list.order.all (isName ·.name) && list.entries.all (isName ·.name)
  | .row _ bindings | .block _ bindings _ => bindings.all (isName ·.name)
  | .table _ rows => !rows.isEmpty && rows.flatten.all (isName ·.name)
  | .emptyTable _ columns => !columns.isEmpty && writableColumns columns
  | .text .. | .bool .. | .currentRow _ | .not .. | .neg .. | .restrict .. => true

/-- Every construct of the expression can be written. -/
inductive Expr.IsWritable : Expr → Prop where
  | intro {e : Expr} : e.isSound = true → (∀ x ∈ e.parts, x.IsWritable) → e.IsWritable

/-- A sentence that can be written. -/
def Sentence.IsWritable : Sentence → Prop
  | .typeDef _ name supertype components =>
    isName name = true ∧ (∀ s ∈ supertype, isName s.1 = true) ∧ writableColumns components = true
  | .define _ name params returns body =>
    isName name = true ∧ writableColumns params = true ∧ (∀ t ∈ returns, t.isWritable = true) ∧
      body.IsWritable
  | .assign _ name value => isName name = true ∧ value.IsWritable
  | .expression value => value.IsWritable

-- ==================================================== item by item

/-- Columns are written one by one. -/
theorem columnTokens_eq (columns : List (String × TypeExpr)) :
    columnTokens columns = columns.map fun c => c.1 :: ":" :: c.2.tokens := by
  induction columns with
  | nil => rfl
  | cons c rest ih => rw [columnTokens, ih, List.map_cons]

theorem unmarkedColumns_eq (columns : List (String × TypeExpr)) :
    unmarkedColumns columns = columns.map fun c => (c.1, c.2.unmarked) := by
  induction columns with
  | nil => rfl
  | cons c rest ih => rw [unmarkedColumns, ih, List.map_cons]

/-- Columns can be written if each of them can. -/
theorem writableColumns_iff {columns : List (String × TypeExpr)} :
    writableColumns columns = true ↔
      ∀ c ∈ columns, isName c.1 = true ∧ c.2.isWritable = true := by
  induction columns with
  | nil => simp [writableColumns]
  | cons c rest ih => simp [writableColumns, ih]

/-- A step with its marks removed. -/
def Step.unmarked (s : Step) : Step := ⟨s.op, 0, s.operand.unmarked⟩

/-- A binding with its marks removed. -/
def Binding.unmarked (b : Binding) : Binding := ⟨b.name, b.value.unmarked⟩

/-- An entry with its marks removed. -/
def FieldEntry.unmarked : FieldEntry → FieldEntry
  | .plain x _ => .plain x 0
  | .computed x _ value => .computed x 0 value.unmarked

theorem unmarkedArguments_eq (args : List Expr) :
    unmarkedArguments args = args.map Expr.unmarked := by
  induction args with
  | nil => rfl
  | cons e rest ih => rw [unmarkedArguments, ih, List.map_cons]

theorem unmarkedSteps_eq (steps : List Step) : unmarkedSteps steps = steps.map Step.unmarked := by
  induction steps with
  | nil => rfl
  | cons s rest ih =>
      obtain ⟨op, mark, operand⟩ := s
      rw [unmarkedSteps, ih, List.map_cons, Step.unmarked]

theorem unmarkedRows_eq (rows : List (List Binding)) :
    unmarkedRows rows = rows.map unmarkedBindings := by
  induction rows with
  | nil => rfl
  | cons row rows ih => rw [unmarkedRows, List.map_cons, ih]

theorem unmarkedBindings_eq (bindings : List Binding) :
    unmarkedBindings bindings = bindings.map Binding.unmarked := by
  induction bindings with
  | nil => rfl
  | cons b rest ih =>
      obtain ⟨x, value⟩ := b
      rw [unmarkedBindings, ih, List.map_cons, Binding.unmarked]

theorem unmarkedEntries_eq (entries : List FieldEntry) :
    unmarkedEntries entries = entries.map FieldEntry.unmarked := by
  induction entries with
  | nil => rfl
  | cons e rest ih =>
      cases e with
      | plain x mark => rw [unmarkedEntries, ih, List.map_cons, FieldEntry.unmarked]
      | computed x mark value => rw [unmarkedEntries, ih, List.map_cons, FieldEntry.unmarked]

section Tokens

variable (style : Style)

/-- The tokens of a binding. -/
def Binding.tokens (b : Binding) : List String := b.name :: ":=" :: b.value.tokens style

/-- The tokens of an entry of a field list. -/
def FieldEntry.tokens : FieldEntry → List String
  | .plain x _ => [x]
  | .computed x _ value => x :: ":=" :: value.tokens style

theorem tokens_number (mark : Nat) (value : Decimal) :
    (Expr.number mark value).tokens style = [value.write] := by
  rw [Expr.tokens]

/-- Arguments are written one by one. -/
theorem argumentTokens_eq (args : List Expr) :
    argumentTokens style args = args.map (Expr.tokens style) := by
  induction args with
  | nil => rfl
  | cons e rest ih => rw [argumentTokens, ih, List.map_cons]

/-- Bindings are written one by one. -/
theorem bindingTokens_eq (bindings : List Binding) :
    bindingTokens style bindings = bindings.map (Binding.tokens style) := by
  induction bindings with
  | nil => rfl
  | cons b rest ih =>
      obtain ⟨x, value⟩ := b
      rw [bindingTokens, ih, List.map_cons, Binding.tokens]

/-- Rows are written one by one, each in braces. -/
theorem rowTokens_eq (rows : List (List Binding)) :
    rowTokens style rows = rows.map fun row =>
      "\x7b" :: commas (row.map (Binding.tokens style)) ++ ["\x7d"] := by
  induction rows with
  | nil => rfl
  | cons row rest ih => rw [rowTokens, ih, List.map_cons, bindingTokens_eq]

/-- Entries are written one by one. -/
theorem entryTokens_eq (entries : List FieldEntry) :
    entryTokens style entries = entries.map (FieldEntry.tokens style) := by
  induction entries with
  | nil => rfl
  | cons e rest ih =>
      cases e with
      | plain x mark => rw [entryTokens, ih, List.map_cons, FieldEntry.tokens]
      | computed x mark value => rw [entryTokens, ih, List.map_cons, FieldEntry.tokens]

end Tokens

end RelQuery
