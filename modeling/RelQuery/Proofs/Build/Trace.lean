/-
The points of a walk, and what is visible at each.

A statement is built by steps that run one after another, each of them a
whole as far as the walk is concerned. The points of the walk are the
states between the steps. A `Traced` step carries them along: what it
does is `step`, and `points` tells which points it passes on the way
from a state. Where two steps are put together, the second one passes
its points from the state that the first one leaves.

Each point comes with the names that the text has in force there
(`Visible`), told by the syntax alone: a level has the columns of its
type, a block the bindings written before this place, with the values
that were built for them. Scopes, slots and copies play no part in
this.

The walk of `Build.statement` is written once more with traced steps,
construct by construct, and does the same (`statement_step`).
-/
import RelQuery.Proofs.Build.Placement

namespace RelQuery

namespace Build

-- ============================================================ names

/-- The names of one level. A block binding has a value; columns,
components and parameters have none. -/
abbrev Names := List (String × Option Node)

/-- The names of the open levels, innermost level first. -/
abbrev Visible := List Names

/-- What a name means: the innermost level that has it decides. -/
def Visible.meaning? (ρ : Visible) (name : String) : Option (Option Node) :=
  ρ.findSome? (·.lookup name)

/-- The columns of a heading, as names. -/
def columnNames (heading : Heading) : Names :=
  heading.map fun c => (c.name, none)

/-- The names that a level for a type has. -/
def typeNames (type : DataType) : Names :=
  columnNames (type.heading?.getD [])

/-- A state between two steps and the names in force. -/
structure Point where
  state : Workspace
  visible : Visible

-- ===================================================== traced steps

/-- A step with the points that it passes. -/
structure Traced (α : Type) where
  step : Build α
  points : Workspace → Point → Prop

namespace Traced

variable {α β : Type}

/-- One step, which begins at a point. -/
def act (ρ : Visible) (step : Build α) : Traced α :=
  ⟨step, fun w p => p = ⟨w, ρ⟩⟩

/-- Marks what the step raises. -/
def located (mark : Nat) (t : Traced α) : Traced α :=
  ⟨Build.located mark t.step, t.points⟩

instance : Monad Traced where
  pure a := ⟨pure a, fun _ _ => False⟩
  bind t f := {
    step := t.step >>= fun a => (f a).step
    points := fun w p => t.points w p ∨
      ∃ a w', t.step w = .ok a w' ∧ (f a).points w' p }

@[simp] theorem step_pure (a : α) : (pure a : Traced α).step = pure a := rfl

@[simp] theorem step_bind (t : Traced α) (f : α → Traced β) :
    (t >>= f).step = t.step >>= fun a => (f a).step := rfl

@[simp] theorem step_act (ρ : Visible) (step : Build α) : (act ρ step).step = step := rfl

@[simp] theorem step_located (mark : Nat) (t : Traced α) :
    (located mark t).step = Build.located mark t.step := rfl

@[simp] theorem step_ite (c : Prop) [Decidable c] (t u : Traced α) :
    (if c then t else u).step = if c then t.step else u.step :=
  apply_ite step c t u

-- ========================================================= the walk

/-- The keys of an ordering. -/
def orderKeys (ρ : Visible) : List OrderKey → Traced (List Segment)
  | [] => return []
  | key :: rest => do
    let segment ← located key.mark (act ρ (orderKey key.name key.descending key.grouped))
    return segment :: (← orderKeys ρ rest)

/-- Joins the operands of an infix chain. -/
def joinChain (catalog : Catalog) (ρ : Visible) (first : Node)
    (rest : List ((String × Nat) × Node)) : Traced Node :=
  (Grouping.ofChain (fun op => precedence op.1) first rest).combine fun lhs op rhs =>
    located op.2 (act ρ (binary catalog op.1 lhs rhs))

/-- A computed field, with its value in a level of its own for `base`. -/
def computedField (ρ : Visible) (base : DataType) (name : String) (mark : Nat)
    (value : Visible → Traced Node) : Traced Segment := do
  act ρ beginField
  let node ← value (typeNames base :: ρ)
  located mark (act (typeNames base :: ρ) (endField name node))

/-- An entry of a field list that is more than a name. -/
def entry (ρ : Visible) (base : DataType) (name : String) (mark : Nat) (e : Expr)
    (value : Visible → Traced Node) : Traced (FieldSpec Segment) := do
  match ← act ρ (renameSource? e) with
  | some source => pure (.rename source name)
  | none => return .extend name (← computedField ρ base name mark value)

/-- The value of a block binding, and the binding. -/
def binding (ρ : Visible) (name : String) (mark : Nat) (value : Traced Node) : Traced Node := do
  act ρ beginLocal
  let node ← value
  located mark (act ρ (bindLocal name node))
  return node

mutual

/-- The walk over an expression. -/
def expression (catalog : Catalog) (ρ : Visible) (keepOpen : Bool) : Expr → Traced Node
  | .number _ value => return .literal (.number value)
  | .text _ value => return .literal (.text value)
  | .bool _ value => return .literal (.bool value)
  | .time _ value => return .literal (.time value)
  | .name mark name => located mark (act ρ (useName catalog name))
  | .currentRow mark => located mark (act ρ currentRow)
  | .call mark name args => located mark do
    let args ← expressions catalog ρ args
    act ρ (call catalog name args)
  | .fold mark op arg => located mark do
    let arg ← expression catalog ρ false arg
    act ρ (fold op arg)
  | .chain mark first steps => located mark do
    let first ← expression catalog ρ false first
    let operands ← operands catalog ρ steps
    joinChain catalog ρ first operands
  | .not mark arg => located mark do
    let arg ← expression catalog ρ false arg
    act ρ (call catalog "not" [arg])
  | .neg mark arg => located mark do
    let arg ← expression catalog ρ false arg
    act ρ (negate catalog arg)
  | .member mark base name => located mark do
    let base ← expression catalog ρ false base
    act ρ (member base name)
  | .restrict mark base predicate => located mark do
    let base ← expression catalog ρ false base
    act ρ (enterRestrict base)
    let predicate ← expression catalog (typeNames base.dataType :: ρ) false predicate
    act (typeNames base.dataType :: ρ) (restrict base predicate)
  | .fields mark base ⟨allBut, order, entries⟩ => located mark do
    let node ← expression catalog ρ true base
    let level := typeNames (levelType base.isFields node) :: ρ
    if base.isFields then act level (chainFields node allBut)
    else act ρ (enterFields node allBut)
    let keys ← orderKeys level order
    let fields ← fieldEntries catalog level node.dataType entries
    act level (finishFields node keys fields keepOpen)
  | .row mark bindings => located mark do
    let fields ← bindingValues catalog ρ bindings
    act ρ (row fields)
  | .table mark rows => located mark do
    let rows ← tableRows catalog ρ rows
    act ρ (table rows)
  | .emptyTable mark columns => located mark do
    let heading ← act ρ (heading catalog columns)
    return .table heading []
  | .block mark bindings body => located mark do
    let first ← act ρ enterBlock
    blockBindings catalog ρ [] bindings fun names => do
      let body ← expression catalog (names :: ρ) false body
      act (names :: ρ) (block first body)

/-- Expressions one after another. -/
def expressions (catalog : Catalog) (ρ : Visible) : List Expr → Traced (List Node)
  | [] => return []
  | e :: rest => do
    let node ← expression catalog ρ false e
    return node :: (← expressions catalog ρ rest)

/-- The operands of an infix chain. -/
def operands (catalog : Catalog) (ρ : Visible) :
    List Step → Traced (List ((String × Nat) × Node))
  | [] => return []
  | ⟨op, mark, operand⟩ :: rest => do
    let node ← expression catalog ρ false operand
    return ((op, mark), node) :: (← operands catalog ρ rest)

/-- The entries of a field list over a base of the given type. -/
def fieldEntries (catalog : Catalog) (ρ : Visible) (base : DataType) :
    List FieldEntry → Traced (List (FieldSpec Segment))
  | [] => return []
  | .plain name _ :: rest => return .project name :: (← fieldEntries catalog ρ base rest)
  | .computed name mark value :: rest => do
    let entry ← entry ρ base name mark value fun ρ => expression catalog ρ false value
    return entry :: (← fieldEntries catalog ρ base rest)

/-- Named values. -/
def bindingValues (catalog : Catalog) (ρ : Visible) :
    List Binding → Traced (List (String × Node))
  | [] => return []
  | ⟨name, value⟩ :: rest => do
    let node ← expression catalog ρ false value
    return (name, node) :: (← bindingValues catalog ρ rest)

/-- The rows of a table. -/
def tableRows (catalog : Catalog) (ρ : Visible) :
    List (List Binding) → Traced (List (List (String × Node)))
  | [] => return []
  | bindings :: rest => do
    let fields ← bindingValues catalog ρ bindings
    return fields :: (← tableRows catalog ρ rest)

/-- The bindings of a block, given the names bound before them, and what
comes after, given all names bound. -/
def blockBindings (catalog : Catalog) (ρ : Visible) (names : Names) :
    List Binding → (Names → Traced Node) → Traced Node
  | [], rest => rest names
  | ⟨name, value⟩ :: bindings, rest => do
    let node ← binding (names :: ρ) name value.mark
      (expression catalog (names :: ρ) false value)
    blockBindings catalog ρ (names ++ [(name, some node)]) bindings rest

end

/-- The walk over a sentence. -/
def sentence (catalog : Catalog) (ρ : Visible) : Sentence → Traced Statement
  | .expression value => do return .expression (← expression catalog ρ false value)
  | .assign mark name value => do
    let node ← expression catalog ρ false value
    located mark (act ρ (assign catalog name node))
  | .define mark name params returns body => do
    let params ← act ρ (heading catalog params)
    let returns ← act ρ (match returns with
      | none => pure none
      | some t => match typeOf catalog t with
        | .ok type => pure (some type)
        | .error f => throw f)
    located mark (act ρ (enterDefine name params))
    let node ← expression catalog (columnNames params :: ρ) false body
    located mark (act (columnNames params :: ρ) (define name params returns node))
  | .typeDef mark name supertype components =>
    act ρ (Build.statement catalog (.typeDef mark name supertype components))

/-- The walk over a sentence with the points at its two ends. -/
def statement (catalog : Catalog) (ρ : Visible) (s : Sentence) : Traced Statement := do
  act ρ (pure ())
  let st ← sentence catalog ρ s
  act ρ (pure ())
  return st

-- ==================================================== the same walk

section

variable (catalog : Catalog) (ρ : Visible)

/-- Keys have no points of their own. -/
theorem orderKeys_step (keys : List OrderKey) :
    (orderKeys ρ keys).step = Build.orderKeys keys := by
  induction keys with
  | nil => rfl
  | cons key rest ih =>
      simp only [orderKeys, Build.orderKeys, step_bind, step_located, step_act, step_pure, ih]

/-- A chain is joined by the steps that join it. -/
theorem combine_step {join : Node → String × Nat → Node → Traced Node}
    {join' : Node → String × Nat → Node → Build Node}
    (h : ∀ lhs op rhs, (join lhs op rhs).step = join' lhs op rhs)
    (g : Grouping (String × Nat) Node) : (g.combine join).step = g.combine join' := by
  induction g with
  | operand n => rfl
  | joined left op right ihleft ihright =>
      simp only [Grouping.combine, step_bind, ihleft, ihright, h]

theorem joinChain_step (first : Node) (rest : List ((String × Nat) × Node)) :
    (joinChain catalog ρ first rest).step = Build.joinChain catalog first rest := by
  rw [joinChain_eq]
  exact combine_step (fun _ _ _ => rfl) _

/-- A computed entry is traced as its value. -/
theorem entry_step {base : DataType} {name : String} {mark : Nat} {e : Expr}
    {value : Visible → Traced Node}
    (h : ∀ ρ, (value ρ).step = Build.expression catalog false e) :
    (entry ρ base name mark e value).step = fieldEntry catalog (.computed name mark e) := by
  unfold entry fieldEntry
  rw [step_bind, step_act]
  refine bind_congr fun source => ?_
  cases source with
  | some source => rfl
  | none =>
      simp only [computedField, Build.computedField, step_bind, step_act, step_located, step_pure,
        h]

mutual

/-- Dropping the points leaves the walk, construct by construct. -/
theorem expression_step (keepOpen : Bool) : ∀ (e : Expr) (ρ : Visible),
    (expression catalog ρ keepOpen e).step = Build.expression catalog keepOpen e
  -- both walks are the same recursion; the trace only tells what is visible at
  -- each place
  | .number _ _, _ | .text _ _, _ | .bool _ _, _ | .time _ _, _ | .name _ _, _
  | .currentRow _, _ | .emptyTable _ _, _ => rfl
  | .call _ name args, ρ => by
      simp only [expression, Build.expression, step_located, step_bind, step_act,
        expressions_step args ρ]
  | .fold _ op arg, ρ => by
      simp only [expression, Build.expression, step_located, step_bind, step_act,
        expression_step false arg ρ]
  | .chain _ first steps, ρ => by
      simp only [expression, Build.expression, step_located, step_bind,
        expression_step false first ρ, operands_step steps ρ, joinChain_step]
  | .not _ arg, ρ => by
      simp only [expression, Build.expression, step_located, step_bind, step_act,
        expression_step false arg ρ]
  | .neg _ arg, ρ => by
      simp only [expression, Build.expression, step_located, step_bind, step_act,
        expression_step false arg ρ]
  | .member _ base name, ρ => by
      simp only [expression, Build.expression, step_located, step_bind, step_act,
        expression_step false base ρ]
  | .restrict _ base predicate, ρ => by
      simp only [expression, Build.expression, step_located, step_bind, step_act,
        expression_step false base ρ, expression_step false predicate]
  | .fields _ base ⟨allBut, order, entries⟩, ρ => by
      simp only [expression, Build.expression, step_located, step_bind, step_act, step_ite,
        expression_step true base ρ, orderKeys_step, fieldEntries_step entries]
  | .row _ bindings, ρ => by
      simp only [expression, Build.expression, step_located, step_bind, step_act,
        bindingValues_step bindings ρ]
  | .table _ rows, ρ => by
      simp only [expression, Build.expression, step_located, step_bind, step_act,
        tableRows_step rows ρ]
  -- the names of a block come one by one, and the body sees all of them
  | .block _ bindings body, ρ => by
      simp only [expression, Build.expression, step_located, step_bind, step_act]
      refine congrArg (Build.located _) (bind_congr fun first => ?_)
      refine blockBindings_step bindings ρ [] _ _ fun names => ?_
      rw [step_bind, expression_step false body (names :: ρ)]
      rfl

theorem expressions_step : ∀ (es : List Expr) (ρ : Visible),
    (expressions catalog ρ es).step = Build.expressions catalog es
  | [], _ => rfl
  | e :: rest, ρ => by
      simp only [expressions, Build.expressions, step_bind, step_pure, expression_step false e ρ,
        expressions_step rest ρ]

theorem operands_step : ∀ (steps : List Step) (ρ : Visible),
    (operands catalog ρ steps).step = Build.operands catalog steps
  | [], _ => rfl
  | ⟨op, mark, operand⟩ :: rest, ρ => by
      simp only [operands, Build.operands, step_bind, step_pure, expression_step false operand ρ,
        operands_step rest ρ]

theorem fieldEntries_step : ∀ (entries : List FieldEntry) (ρ : Visible) (base : DataType),
    (fieldEntries catalog ρ base entries).step = Build.fieldEntries catalog entries
  | [], _, _ => rfl
  | .plain name mark :: rest, ρ, base => by
      simp only [fieldEntries, Build.fieldEntries, step_bind, step_pure,
        fieldEntries_step rest ρ base]
  | .computed name mark value :: rest, ρ, base => by
      have hentry : (entry ρ base name mark value fun ρ => expression catalog ρ false value).step
          = fieldEntry catalog (.computed name mark value) :=
        entry_step catalog ρ (expression_step false value)
      rw [fieldEntries_cons]
      simp only [fieldEntries, step_bind, step_pure, hentry, fieldEntries_step rest ρ base]

theorem bindingValues_step : ∀ (bindings : List Binding) (ρ : Visible),
    (bindingValues catalog ρ bindings).step = Build.bindingValues catalog bindings
  | [], _ => rfl
  | ⟨name, value⟩ :: rest, ρ => by
      simp only [bindingValues, Build.bindingValues, step_bind, step_pure,
        expression_step false value ρ, bindingValues_step rest ρ]

theorem tableRows_step : ∀ (rows : List (List Binding)) (ρ : Visible),
    (tableRows catalog ρ rows).step = Build.tableRows catalog rows
  | [], _ => rfl
  | bindings :: rest, ρ => by
      simp only [tableRows, Build.tableRows, step_bind, step_pure, bindingValues_step bindings ρ,
        tableRows_step rest ρ]

/-- A block goes on with more names in force after each binding. -/
theorem blockBindings_step : ∀ (bindings : List Binding) (ρ : Visible) (names : Names)
    (rest : Names → Traced Node) (last : Build Node) (_ : ∀ names, (rest names).step = last),
    (blockBindings catalog ρ names bindings rest).step
      = Build.blockBindings catalog bindings >>= fun _ => last
  | [], ρ, names, rest, last, h => by
      simp only [blockBindings, Build.blockBindings, h, pure_bind]
  | ⟨name, value⟩ :: bindings, ρ, names, rest, last, h => by
      simp only [blockBindings, binding, Build.blockBindings, step_bind, step_act, step_located,
        step_pure, bind_assoc, pure_bind, expression_step false value,
        blockBindings_step bindings ρ _ rest last h]

end

/-- Dropping the points of a sentence leaves the building of the statement. -/
theorem sentence_step (s : Sentence) :
    (sentence catalog ρ s).step = Build.statement catalog s := by
  cases s with
  | expression value =>
      simp only [sentence, Build.statement, step_bind, step_pure, expression_step]
  | assign mark name value =>
      simp only [sentence, Build.statement, step_bind, step_act, step_located, expression_step]
  | define mark name params returns body =>
      simp only [sentence, Build.statement, step_bind, step_act, step_located, expression_step]
      refine bind_congr fun params => ?_
      cases returns with
      | none => rfl
      | some t =>
          dsimp only
          cases typeOf catalog t with
          | ok type => rfl
          | error f => rfl
  | typeDef mark name supertype components => rfl

/-- The traced walk is the walk. -/
theorem statement_step (s : Sentence) :
    (statement catalog ρ s).step = Build.statement catalog s := by
  simp only [statement, step_bind, step_act, step_pure, sentence_step, pure_bind, bind_pure]

end

end Traced

end Build

end RelQuery
