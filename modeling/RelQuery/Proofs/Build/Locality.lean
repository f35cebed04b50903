/-
Building looks at the entries that a sentence names, and at no others.

The catalog is asked for a bare name that no scope knows, for the name of
a call that no builtin has, for the names of types and of a supertype,
and for the target of an assignment. All of these are written in the
sentence (`Sentence.identifiers`): a value that a block substitutes and a
type that an entry embeds bring no names of their own, and operators are
builtins. So two catalogs that have the same entries under the written
names are the same to building, in any workspace.
-/
import RelQuery.Session.Basic

namespace RelQuery

-- ===================================================== written names

mutual

/-- The type names in a written type. -/
def TypeExpr.identifiers : TypeExpr → List String
  | .named name _ => [name]
  | .tuple columns | .relation columns => TypeExpr.inColumns columns

/-- The type names in written columns. -/
def TypeExpr.inColumns : List (String × TypeExpr) → List String
  | [] => []
  | (_, t) :: rest => t.identifiers ++ inColumns rest

end

namespace Expr

mutual

/-- The names of values, functions and types in an expression. What it
only defines or selects from a heading is not among them. -/
def identifiers : Expr → List String
  | .number .. | .text .. | .bool .. | .time .. | .currentRow _ => []
  | .name _ ident => [ident]
  | .call _ function args => function :: inAll args
  | .fold _ _ arg | .not _ arg | .neg _ arg | .member _ arg _ => arg.identifiers
  | .chain _ first steps => first.identifiers ++ inSteps steps
  | .restrict _ base predicate => base.identifiers ++ predicate.identifiers
  | .fields _ base ⟨_, _, entries⟩ => base.identifiers ++ inEntries entries
  | .row _ bindings => inBindings bindings
  | .table _ rows => inRows rows
  | .emptyTable _ columns => TypeExpr.inColumns columns
  | .block _ bindings body => inBindings bindings ++ body.identifiers

/-- The names in expressions. -/
def inAll : List Expr → List String
  | [] => []
  | e :: rest => e.identifiers ++ inAll rest

/-- The names in the operands of an infix chain. -/
def inSteps : List Step → List String
  | [] => []
  | ⟨_, _, operand⟩ :: rest => operand.identifiers ++ inSteps rest

/-- The names in the entries of a field list. -/
def inEntries : List FieldEntry → List String
  | [] => []
  | .plain _ _ :: rest => inEntries rest
  | .computed _ _ value :: rest => value.identifiers ++ inEntries rest

/-- The names in bound values. -/
def inBindings : List Binding → List String
  | [] => []
  | ⟨_, value⟩ :: rest => value.identifiers ++ inBindings rest

/-- The names in the rows of a table. -/
def inRows : List (List Binding) → List String
  | [] => []
  | bindings :: rest => inBindings bindings ++ inRows rest

end

end Expr

/-- The names under which a sentence may look for an entry: those in its
expressions and types, its supertype and the target of an assignment. -/
def Sentence.identifiers : Sentence → List String
  | .typeDef _ _ supertype components =>
    (supertype.map (·.1)).toList ++ TypeExpr.inColumns components
  | .define _ _ params returns body =>
    TypeExpr.inColumns params ++ (returns.map TypeExpr.identifiers).getD [] ++ body.identifiers
  | .assign _ name value => name :: value.identifiers
  | .expression value => value.identifiers

/-- The catalogs have the same entries under the names. -/
def Catalog.AgreeOn (c₁ c₂ : Catalog) (names : List String) : Prop :=
  ∀ name ∈ names, c₁.find? name = c₂.find? name

namespace Catalog.AgreeOn

variable {c₁ c₂ : Catalog} {name : String} {names others : List String}

theorem cons_iff : c₁.AgreeOn c₂ (name :: names) ↔
    c₁.find? name = c₂.find? name ∧ c₁.AgreeOn c₂ names :=
  List.forall_mem_cons

theorem append_iff : c₁.AgreeOn c₂ (names ++ others) ↔
    c₁.AgreeOn c₂ names ∧ c₁.AgreeOn c₂ others :=
  List.forall_mem_append

theorem singleton_iff : c₁.AgreeOn c₂ [name] ↔ c₁.find? name = c₂.find? name :=
  List.forall_mem_singleton

end Catalog.AgreeOn

namespace Build

open Catalog (AgreeOn)

variable {c₁ c₂ : Catalog} {name : String}

-- ================================================= steps of building

theorem useName_congr (h : c₁.find? name = c₂.find? name) : useName c₁ name = useName c₂ name := by
  simp only [useName, useGlobal, h]

theorem call_congr (h : c₁.find? name = c₂.find? name) : call c₁ name = call c₂ name := by
  funext args
  simp only [call, h]

/-- A builtin is called without a look at the catalog. -/
theorem call_builtin_congr (c₁ c₂ : Catalog) (h : (Builtin.find? name).isSome) :
    call c₁ name = call c₂ name := by
  obtain ⟨builtin, hbuiltin⟩ := Option.isSome_iff_exists.mp h
  funext args
  simp only [call, hbuiltin]

/-- The minus is a builtin. -/
theorem negate_congr (c₁ c₂ : Catalog) : negate c₁ = negate c₂ := by
  have hneg : call c₁ "neg" = call c₂ "neg" := call_builtin_congr c₁ c₂ (by decide +kernel)
  funext arg
  unfold negate
  rw [hneg]

/-- What is accepted as an operator is a builtin. -/
theorem binary_congr (c₁ c₂ : Catalog) : binary c₁ = binary c₂ := by
  funext op lhs rhs
  unfold binary
  split
  · rfl
  · next hop =>
      have hbuiltin : (Builtin.find? op).isSome := by
        cases hfind : Builtin.find? op with
        | none => exact absurd (by rw [Builtin.precedence?, hfind]; rfl) hop
        | some _ => rfl
      rw [call_builtin_congr c₁ c₂ hbuiltin]

theorem joinChain_congr (c₁ c₂ : Catalog) : joinChain c₁ = joinChain c₂ := by
  funext first rest
  simp only [joinChain, binary_congr c₁ c₂]

theorem namedType_congr (h : c₁.find? name = c₂.find? name) :
    namedType c₁ name = namedType c₂ name := by
  simp only [namedType, h]

mutual

/-- A written type is put together from the names in it. -/
theorem typeOf_congr : ∀ {t : TypeExpr}, c₁.AgreeOn c₂ t.identifiers → typeOf c₁ t = typeOf c₂ t
  | .named _ _, h => by
      rw [TypeExpr.identifiers, AgreeOn.singleton_iff] at h
      rw [typeOf, typeOf, namedType_congr h]
  | .tuple _, h | .relation _, h => by
      rw [TypeExpr.identifiers] at h
      rw [typeOf, typeOf, columnsOf_congr h]

/-- Written columns are put together from the names in their types. -/
theorem columnsOf_congr : ∀ {columns : List (String × TypeExpr)},
    c₁.AgreeOn c₂ (TypeExpr.inColumns columns) → columnsOf c₁ columns = columnsOf c₂ columns
  | [], _ => rfl
  | (_, _) :: _, h => by
      rw [TypeExpr.inColumns, AgreeOn.append_iff] at h
      rw [columnsOf, columnsOf, typeOf_congr h.1, columnsOf_congr h.2]

end

theorem heading_congr {columns : List (String × TypeExpr)}
    (h : c₁.AgreeOn c₂ (TypeExpr.inColumns columns)) : heading c₁ columns = heading c₂ columns := by
  simp only [heading, headingOf, columnsOf_congr h]

theorem assign_congr (h : c₁.find? name = c₂.find? name) : assign c₁ name = assign c₂ name := by
  funext value
  simp only [assign, h]

/-- A supertype is looked up once. -/
theorem inherited_congr {supertype : Option String} (h : c₁.AgreeOn c₂ supertype.toList) :
    inherited c₁ supertype = inherited c₂ supertype := by
  cases supertype with
  | none => rfl
  | some parent => simp only [inherited, AgreeOn.singleton_iff.mp h]

-- ========================================================== the walk

mutual

/-- An expression asks for the names in its parts, and each part agrees on
its own. -/
theorem expression_congr (keepOpen : Bool) : ∀ {e : Expr},
    c₁.AgreeOn c₂ e.identifiers → expression c₁ keepOpen e = expression c₂ keepOpen e
  -- neither a literal nor the current row looks anything up
  | .number _ _, _ | .text _ _, _ | .bool _ _, _ | .time _ _, _ | .currentRow _, _ => by
      rw [expression, expression]
  | .name _ _, h => by
      rw [Expr.identifiers, AgreeOn.singleton_iff] at h
      rw [expression, expression, useName_congr h]
  | .call _ _ _, h => by
      rw [Expr.identifiers, AgreeOn.cons_iff] at h
      rw [expression, expression, expressions_congr h.2, call_congr h.1]
  | .fold _ _ _, h | .member _ _ _, h => by
      rw [Expr.identifiers] at h
      rw [expression, expression, expression_congr false h]
  | .chain _ _ _, h => by
      rw [Expr.identifiers, AgreeOn.append_iff] at h
      rw [expression, expression, expression_congr false h.1, operands_congr h.2,
        joinChain_congr c₁ c₂]
  -- `not` and the minus are builtins, which every catalog finds alike
  | .not _ _, h => by
      rw [Expr.identifiers] at h
      rw [expression, expression, expression_congr false h,
        call_builtin_congr c₁ c₂ (by decide +kernel)]
  | .neg _ _, h => by
      rw [Expr.identifiers] at h
      rw [expression, expression, expression_congr false h, negate_congr c₁ c₂]
  | .restrict _ _ _, h => by
      rw [Expr.identifiers, AgreeOn.append_iff] at h
      rw [expression, expression, expression_congr false h.1, expression_congr false h.2]
  | .fields _ _ ⟨_, _, _⟩, h => by
      rw [Expr.identifiers, AgreeOn.append_iff] at h
      rw [expression, expression, expression_congr true h.1, fieldEntries_congr h.2]
  | .row _ _, h => by
      rw [Expr.identifiers] at h
      rw [expression, expression, bindingValues_congr h]
  | .table _ _, h => by
      rw [Expr.identifiers] at h
      rw [expression, expression, tableRows_congr h]
  | .emptyTable _ _, h => by
      rw [Expr.identifiers] at h
      rw [expression, expression, heading_congr h]
  | .block _ _ _, h => by
      rw [Expr.identifiers, AgreeOn.append_iff] at h
      rw [expression, expression, blockBindings_congr h.1, expression_congr false h.2]

theorem expressions_congr : ∀ {es : List Expr},
    c₁.AgreeOn c₂ (Expr.inAll es) → expressions c₁ es = expressions c₂ es
  | [], _ => by rw [expressions, expressions]
  | _ :: _, h => by
      rw [Expr.inAll, AgreeOn.append_iff] at h
      rw [expressions, expressions, expression_congr false h.1, expressions_congr h.2]

/-- Operators between the operands are not asked for. -/
theorem operands_congr : ∀ {steps : List Step},
    c₁.AgreeOn c₂ (Expr.inSteps steps) → operands c₁ steps = operands c₂ steps
  | [], _ => by rw [operands, operands]
  | ⟨_, _, _⟩ :: _, h => by
      rw [Expr.inSteps, AgreeOn.append_iff] at h
      rw [operands, operands, expression_congr false h.1, operands_congr h.2]

/-- A field asks for the names in its value; kept columns are not asked
for. -/
theorem fieldEntries_congr : ∀ {entries : List FieldEntry},
    c₁.AgreeOn c₂ (Expr.inEntries entries) → fieldEntries c₁ entries = fieldEntries c₂ entries
  | [], _ => by rw [fieldEntries, fieldEntries]
  | .plain _ _ :: _, h => by
      rw [Expr.inEntries] at h
      rw [fieldEntries, fieldEntries, fieldEntries_congr h]
  | .computed _ _ _ :: _, h => by
      rw [Expr.inEntries, AgreeOn.append_iff] at h
      rw [fieldEntries, fieldEntries, expression_congr false h.1, fieldEntries_congr h.2]

theorem bindingValues_congr : ∀ {bindings : List Binding},
    c₁.AgreeOn c₂ (Expr.inBindings bindings) → bindingValues c₁ bindings = bindingValues c₂ bindings
  | [], _ => by rw [bindingValues, bindingValues]
  | ⟨_, _⟩ :: _, h => by
      rw [Expr.inBindings, AgreeOn.append_iff] at h
      rw [bindingValues, bindingValues, expression_congr false h.1, bindingValues_congr h.2]

theorem tableRows_congr : ∀ {rows : List (List Binding)},
    c₁.AgreeOn c₂ (Expr.inRows rows) → tableRows c₁ rows = tableRows c₂ rows
  | [], _ => by rw [tableRows, tableRows]
  | _ :: _, h => by
      rw [Expr.inRows, AgreeOn.append_iff] at h
      rw [tableRows, tableRows, bindingValues_congr h.1, tableRows_congr h.2]

theorem blockBindings_congr : ∀ {bindings : List Binding},
    c₁.AgreeOn c₂ (Expr.inBindings bindings) → blockBindings c₁ bindings = blockBindings c₂ bindings
  | [], _ => by rw [blockBindings, blockBindings]
  | ⟨_, _⟩ :: _, h => by
      rw [Expr.inBindings, AgreeOn.append_iff] at h
      rw [blockBindings, blockBindings, expression_congr false h.1, blockBindings_congr h.2]

end

/-- A statement asks for the names in its header and in its expression. -/
theorem statement_congr : ∀ {sentence : Sentence},
    c₁.AgreeOn c₂ sentence.identifiers → statement c₁ sentence = statement c₂ sentence
  | .expression _, h => by
      rw [Sentence.identifiers] at h
      rw [statement, statement, expression_congr false h]
  | .assign _ _ _, h => by
      rw [Sentence.identifiers, AgreeOn.cons_iff] at h
      rw [statement, statement, expression_congr false h.2, assign_congr h.1]
  | .define _ _ _ none _, h => by
      simp only [Sentence.identifiers, AgreeOn.append_iff] at h
      rw [statement, statement, heading_congr h.1.1, expression_congr false h.2]
  | .define _ _ _ (some _) _, h => by
      simp only [Sentence.identifiers, AgreeOn.append_iff] at h
      simp only [statement, heading_congr h.1.1, typeOf_congr h.1.2, expression_congr false h.2]
  | .typeDef _ _ _ _, h => by
      rw [Sentence.identifiers, AgreeOn.append_iff] at h
      simp only [statement, typeDef, heading_congr h.2, inherited_congr h.1]

-- ======================================================== statements

/-- What a sentence comes to in a fresh context: its statement with the
code for it, or the fault that refuses it. -/
def compiled (catalog : Catalog) (sentence : Sentence) (start : Location) :
    Except BuildFault (Statement × Except Failure (List UInt8)) :=
  match statement catalog sentence { context := .fresh } with
  | .ok st _ => .ok (st, SessionStep.emit st start)
  | .error fault _ => .error fault

/-- The entries that a sentence names determine what it comes to. With
two catalogs that have the same entries under these names, building gives
the same statement or the same fault and leaves the same workspace, from
whatever workspace it starts. From a fresh context, the code is the same
as well. -/
theorem statement_depends_on_named_entries {sentence : Sentence}
    (h : ∀ ident ∈ sentence.identifiers, c₁.find? ident = c₂.find? ident) :
    (∀ w, statement c₁ sentence w = statement c₂ sentence w) ∧
    ∀ start, compiled c₁ sentence start = compiled c₂ sentence start := by
  have hstatement : statement c₁ sentence = statement c₂ sentence := statement_congr h
  refine ⟨fun w => congrFun hstatement w, fun start => ?_⟩
  rw [compiled, hstatement, compiled]

/-- The entries of a type, of a function that takes it and of a number. -/
def namedEntries : List Symbol :=
  let pair : DataType := .user ⟨"pair", [⟨"x", .number⟩, ⟨"y", .number⟩], none⟩
  let norm : Signature :=
    { name := "norm", returns := .number, args := [⟨"p", pair⟩], variadic := none, accums := 0
      windowed := false, kind := .deferred }
  [{ name := "pair", kind := .userType, type := pair },
    .callable "norm" .deferred [norm],
    { name := "w", kind := .catalog, type := .number, isMutable := true }]

/-- The same entries in another order, with two more. -/
def moreEntries : List Symbol :=
  { name := "u", kind := .catalog, type := .text, isMutable := true } ::
    namedEntries.reverse ++ [{ name := "x", kind := .userType, type := .user ⟨"x", [], none⟩ }]

/-- `v := do { q := pair(w, w); norm(q) }`. -/
def namingSentence : Sentence :=
  .assign 0 "v" (.block 5 [⟨"q", .call 15 "pair" [.name 20 "w", .name 23 "w"]⟩]
    (.call 27 "norm" [.name 32 "q"]))

/-- Both catalogs give code, and nothing in it tells them apart. -/
theorem statement_depends_on_named_entries_more :
    (∀ ident ∈ namingSentence.identifiers, Catalog.find? { entries := namedEntries } ident
      = Catalog.find? { entries := moreEntries } ident) ∧
    (Catalog.find? { entries := namedEntries } "u").isSome = false ∧
    (Catalog.find? { entries := moreEntries } "u").isSome = true ∧
    ((compiled { entries := namedEntries } namingSentence (.ofOffset [] 0)).toOption.bind
      (·.2.toOption)).isSome ∧
    ∀ start, compiled { entries := namedEntries } namingSentence start
      = compiled { entries := moreEntries } namingSentence start := by
  have hagree : ∀ ident ∈ namingSentence.identifiers,
      Catalog.find? { entries := namedEntries } ident
        = Catalog.find? { entries := moreEntries } ident := by
    have hidents : namingSentence.identifiers = ["v", "pair", "w", "w", "norm", "q"] := by decide
    rw [hidents]
    simp only [List.forall_mem_cons]
    exact ⟨rfl, rfl, rfl, rfl, rfl, rfl, nofun⟩
  exact ⟨hagree, by decide, by decide, by decide +kernel,
    (statement_depends_on_named_entries hagree).2⟩

end Build

end RelQuery
