/-
One walk for many properties.

A property of building that is to hold of every expression has to be
followed through the same constructs each time. Most of them only run
steps in a row and put a node around the trees that these have made. A
`Discipline` lists what remains to be shown of a property: that it holds
of the steps that call, fold, find names, open a level or handle field
lists, and that it is kept when steps run one after another. The walk is
made once (`Discipline.walk`).

The property is stated of a step together with the trees that are given
to it and those that it makes (`Makes`). Lists of fields, bindings of
blocks and expressions that may leave a level open each have a property
of their own, over their syntax.
-/
import RelQuery.Build.Walk
import RelQuery.Proofs.Build.Copy
import RelQuery.Proofs.Build.Reorder
import RelQuery.Proofs.Grammar.Climbing
import RelQuery.Proofs.Type.Standard

namespace RelQuery

open Node (Wrap)

-- ================================================ trees put together

/-- The computed fields of a list as written. -/
def FieldSpec.computed (entries : List (FieldSpec Segment)) : List Segment :=
  (extensions entries).map Prod.snd

namespace Builtin

/-- The links of a builtin are those that the table has under its name. -/
theorem links_symbolOf (name : String) :
    (symbolOf name).links = links.filter (·.name == name) := by
  unfold symbolOf
  dsimp only
  split
  · rfl
  · rfl

/-- No operator with further arguments looks at neighbouring rows. -/
theorem windowed_of_variadic {name : String} {s : Symbol} (hs : find? name = some s)
    {types : List DataType} {r : Resolved} (h : s.resolve types = .ok r)
    (hkind : r.call.kind = .variadic ∨ r.call.kind = .variadicTable) : r.call.windowed = false := by
  have htable : ∀ link ∈ links, link.kind = .variadic ∨ link.kind = .variadicTable →
      link.windowed = false := by decide
  obtain ⟨first, hfirst, -, hchoose, -⟩ := Symbol.resolve_eq_ok h
  obtain ⟨link, hlink, -, hsame, hwindowed⟩ := Symbol.choose_eq_ok hfirst hchoose
  obtain ⟨other, -, rfl⟩ := List.mem_map.mp (List.mem_of_find?_eq_some hs)
  rw [links_symbolOf] at hlink
  rw [hsame] at hkind
  rw [hwindowed]
  exact htable link (List.mem_filter.mp hlink).1 hkind

end Builtin

namespace Build

/-- Rows in the order of an equal heading are plain nodes around their
values. -/
theorem rowsLike_wrap {first : Heading} (hfirst : first.names.Nodup)
    {rows : List (List (String × Node))} {nodes : List Node} (h : rowsLike first rows = .ok nodes) :
    Wrap (rows.flatMap (·.map Prod.snd)) nodes := by
  induction rowsLike_eq_ok.mp h with
  | nil => exact .refl []
  | @cons fields _ rest nodes hrow hrest ih =>
      obtain ⟨heading, hheading, hsame, rfl⟩ := hrow
      have hnode : Wrap (reorder first fields) [.row first (reorder first fields)] :=
        .node (n := .row first (reorder first fields)) trivial
      have hperm := reorder_perm hfirst hheading hsame
      exact .append (.trans (.perm hperm.symm) hnode) (ih (rowsLike_eq_ok.mpr hrest))

end Build

-- ========================================================= relations

open Build

/-- A name that stands for no function raises a fault, whatever it stands
for. -/
theorem Relates.uncallable {R : Workspace → List Node → Workspace → List Node → Prop}
    {given : List Node} {made : Node → List Node} (name : String) :
    Relates R given (get >>= fun w : Workspace =>
      if (w.context.scopes.find? name).isSome then Build.fail (.type (.notCallable name))
      else Build.fail (.undefinedFunction name)) made := by
  intro w a w' h
  rw [get_bind_apply] at h
  split at h
  · exact absurd h fail_ne_ok
  · exact absurd h fail_ne_ok

namespace Build

/-- Climbing through a chain joins it as it is grouped, so a property of
its joins is followed along the grouping. -/
theorem joinChain_eq (catalog : Catalog) (first : Node) (rest : List ((String × Nat) × Node)) :
    joinChain catalog first rest =
      (Grouping.ofChain (fun op => precedence op.1) first rest).combine fun lhs op rhs =>
        located op.2 (binary catalog op.1 lhs rhs) :=
  Grouping.climb_eq _ first rest

/-- Written columns are looked up in the catalog, which nothing changes. -/
theorem heading_looks (catalog : Catalog) (columns : List (String × TypeExpr)) :
    Looks (heading catalog columns) fun _ => True := by
  unfold heading
  split
  · exact .pure trivial
  · exact .throw _

/-- The steps of the bindings of a block: the first one, then the others. -/
theorem blockBindings_steps {catalog : Catalog} {name : String} {value : Expr}
    {rest : List Binding} {w w' : Workspace} {u : Unit}
    (h : blockBindings catalog (⟨name, value⟩ :: rest) w = .ok u w') :
    ∃ u₁ w₁, (beginLocal >>= fun _ => expression catalog false value >>= fun n =>
      located value.mark (bindLocal name n)) w = .ok u₁ w₁ ∧
      blockBindings catalog rest w₁ = .ok u w' := by
  obtain ⟨u₀, w₀, hbegin, h⟩ := bind_eq_ok.mp h
  obtain ⟨n, w₂, hn, h⟩ := bind_eq_ok.mp h
  obtain ⟨u₁, w₁, hbind, h⟩ := bind_eq_ok.mp h
  exact ⟨u₁, w₁, bind_eq_ok.mpr ⟨u₀, w₀, hbegin, bind_eq_ok.mpr ⟨n, w₂, hn, hbind⟩⟩, h⟩

-- ====================================================== field lists

/-- Whether an entry renames a column is looked up. -/
theorem renameSource?_looks (e : Expr) : Looks (renameSource? e) fun _ => True := by
  unfold renameSource?
  split
  · have hrename (name : String) : Looks (isRename name) fun _ => True := by
      refine .get_bind fun w => ?_
      split
      · exact .pure trivial
      · exact .pure trivial
    exact (hrename _).bind fun _ _ => .pure trivial
  · exact .pure trivial

/-- One computed field of a list. -/
def computedField (catalog : Catalog) (name : String) (mark : Nat) (value : Expr) : Build Segment :=
  beginField >>= fun _ => expression catalog false value >>= fun node =>
    located mark (endField name node)

/-- One entry of a list. -/
def fieldEntry (catalog : Catalog) : FieldEntry → Build (FieldSpec Segment)
  | .plain name _ => pure (.project name)
  | .computed name mark value => renameSource? value >>= fun
    | some source => pure (.rename source name)
    | none => computedField catalog name mark value >>= fun segment => pure (.extend name segment)

/-- The entries of a list are built one after another. -/
theorem fieldEntries_cons (catalog : Catalog) (entry : FieldEntry) (rest : List FieldEntry) :
    fieldEntries catalog (entry :: rest)
      = fieldEntry catalog entry >>= fun field => fieldEntries catalog rest >>= fun fields =>
          pure (field :: fields) := by
  cases entry with
  | plain name mark => rfl
  | computed name mark value =>
      simp only [fieldEntries, fieldEntry, computedField, bind_assoc]
      refine bind_congr fun source => ?_
      cases source with
      | some source => rfl
      | none => simp only [bind_assoc, pure_bind]

/-- A relation between the workspace before the entries of a list, the
fields computed of them and the workspace after them holds of every run
that succeeds. -/
def RelatesFields (catalog : Catalog) (R : Workspace → List Segment → Workspace → Prop)
    (entries : List FieldEntry) : Prop :=
  ∀ w fields w', fieldEntries catalog entries w = .ok fields w' →
    R w (FieldSpec.computed fields) w'

namespace RelatesFields

variable {catalog : Catalog} {R : Workspace → List Segment → Workspace → Prop} {name : String}
  {mark : Nat} {rest : List FieldEntry}

/-- A list without entries does nothing. -/
theorem nil (h : ∀ w, R w [] w) : RelatesFields catalog R [] := by
  intro w fields w' hfields
  cases hfields
  exact h w

/-- A column that is kept computes nothing. -/
theorem plain (hrest : RelatesFields catalog R rest) :
    RelatesFields catalog R (.plain name mark :: rest) := by
  intro w fields w' hfields
  obtain ⟨others, w₁, hothers, hfields⟩ := bind_eq_ok.mp hfields
  cases hfields
  exact hrest w others w' hothers

/-- A column that is renamed computes nothing either; what is left to
show is what a field does that comes before others. -/
theorem computed {value : Expr} (hrest : RelatesFields catalog R rest)
    (h : ∀ {w w₁ w' : Workspace} {segment : Segment} {others : List Segment},
      computedField catalog name mark value w = .ok segment w₁ → R w₁ others w' →
        R w (segment :: others) w') :
    RelatesFields catalog R (.computed name mark value :: rest) := by
  intro w fields w' hfields
  rw [fieldEntries_cons] at hfields
  obtain ⟨field, w₁, hfield, hfields⟩ := bind_eq_ok.mp hfields
  obtain ⟨others, w₂, hothers, hfields⟩ := bind_eq_ok.mp hfields
  cases hfields
  obtain ⟨source, w₃, hsource, hfield⟩ := bind_eq_ok.mp hfield
  obtain ⟨rfl, -⟩ := renameSource?_looks value w source w₃ hsource
  cases source with
  | some source =>
      cases hfield
      exact hrest _ others w' hothers
  | none =>
      obtain ⟨segment, w₄, hsegment, hfield⟩ := bind_eq_ok.mp hfield
      cases hfield
      exact h hsegment (hrest _ others w' hothers)

end RelatesFields

end Build

-- ======================================================== discipline

/-- What has to be shown of a property of building for it to hold of
every expression. -/
structure Discipline (catalog : Catalog) where
  /-- The step makes trees out of given ones. -/
  Makes : {α : Type} → List Node → Build α → (α → List Node) → Prop
  /-- The expression is built; a list that is kept open leaves its
  level. -/
  Builds : Bool → Expr → Prop
  /-- The bindings are added to a block. -/
  Binds : List Binding → Prop
  /-- The entries of a field list are built. -/
  Lists : List FieldEntry → Prop
  -- steps in general
  pure : ∀ {α : Type} {given : List Node} {made : α → List Node} {a : α},
    Wrap given (made a) → Makes given (Pure.pure a) made
  throw : ∀ {α : Type} {given : List Node} {made : α → List Node} (f : BuildFault),
    Makes given (throw f) made
  bind : ∀ {α β : Type} {given : List Node} {step : Build α} {m : α → List Node}
    {rest : α → Build β} {made : β → List Node},
    Makes given step m → (∀ a, Makes (m a) (rest a) made) → Makes given (step >>= rest) made
  frame : ∀ {α : Type} {given : List Node} {step : Build α} {made : α → List Node}
    (others : List Node), Makes given step made →
      Makes (others ++ given) step fun a => others ++ made a
  located : ∀ {α : Type} {given : List Node} {step : Build α} {made : α → List Node} (mark : Nat),
    Makes given step made → Makes given (located mark step) made
  -- calls and names
  uncallable : ∀ (given : List Node) (name : String),
    Makes given (get >>= fun w : Workspace =>
      if (w.context.scopes.find? name).isSome then fail (.type (.notCallable name))
      else fail (.undefinedFunction name)) fun n => [n]
  builtin : ∀ (link : Signature) (args : List Node) (type : DataType),
    Makes args (noteWindow link >>= fun _ => allocateFor link >>= fun slot =>
      Pure.pure (.call link args type slot)) fun n => [n]
  function : ∀ (link : Signature) (args : List Node) (type : DataType),
    Makes args (allocateFor link >>= fun slot => Pure.pure (.function link args type slot))
      fun n => [n]
  fold : ∀ (op : String) (arg : Node) (type : DataType),
    Makes [arg] (allocate "fold" 1 >>= fun slot => Pure.pure (.fold op slot arg type)) fun n => [n]
  name : ∀ (name : String), Makes [] (useName catalog name) fun n => [n]
  currentRow : Makes [] currentRow fun n => [n]
  -- levels
  restrict : ∀ (base : Node) (predicate : Expr),
    Makes [] (expression catalog false predicate) (fun n => [n]) →
    Makes [base] (enterRestrict base >>= fun _ => expression catalog false predicate >>= fun p =>
      restrict base p) fun n => [n]
  binds_nil : Binds []
  binds_cons : ∀ {name : String} {value : Expr} {rest : List Binding},
    Makes [] (expression catalog false value) (fun n => [n]) → Binds rest →
      Binds (⟨name, value⟩ :: rest)
  block : ∀ {bindings : List Binding} {body : Expr}, Binds bindings →
    Makes [] (expression catalog false body) (fun n => [n]) →
    Makes [] (enterBlock >>= fun first => blockBindings catalog bindings >>= fun _ =>
      expression catalog false body >>= fun n => block first n) fun n => [n]
  -- field lists
  lists_nil : Lists []
  lists_plain : ∀ {name : String} {mark : Nat} {rest : List FieldEntry}, Lists rest →
    Lists (.plain name mark :: rest)
  lists_computed : ∀ {name : String} {mark : Nat} {value : Expr} {rest : List FieldEntry},
    Makes [] (expression catalog false value) (fun n => [n]) → Lists rest →
      Lists (.computed name mark value :: rest)
  closed : ∀ {keepOpen : Bool} {e : Expr}, e.isFields = false →
    Makes [] (expression catalog keepOpen e) (fun n => [n]) → Builds keepOpen e
  makes : ∀ {e : Expr}, Builds false e → Makes [] (expression catalog false e) fun n => [n]
  fields : ∀ {keepOpen : Bool} {mark : Nat} {base : Expr} {allBut : Bool} {order : List OrderKey}
    {entries : List FieldEntry}, Builds true base → Lists entries →
      Builds keepOpen (.fields mark base ⟨allBut, order, entries⟩)

namespace Discipline

variable {catalog : Catalog} (D : Discipline catalog) {α β : Type} {given : List Node}

-- ================================================== derived rules

theorem fail {made : α → List Node} (e : BuildError) : D.Makes given (Build.fail e) made :=
  D.throw _

/-- A plain node around the given trees. -/
theorem node {n : Node} (h : n.IsPlain) : D.Makes n.operands (Pure.pure n) fun n => [n] :=
  D.pure (Wrap.node h)

/-- Looking something up makes nothing. -/
theorem ofExcept_bind {ε : Type} {wrap : ε → BuildError} {r : Except ε α} {f : α → Build β}
    {made : β → List Node} (h : ∀ a, r = .ok a → D.Makes given (f a) made) :
    D.Makes given (ofExcept wrap r >>= f) made := by
  cases r with
  | ok a => exact h a rfl
  | error e => exact D.fail (wrap e)

/-- The given trees may be wrapped first. -/
theorem after {others : List Node} {step : Build α} {made : α → List Node}
    (hwrap : Wrap others given) (h : D.Makes given step made) : D.Makes others step made :=
  have hpure : D.Makes others (Pure.pure ()) fun _ => given := D.pure hwrap
  D.bind hpure fun _ => h

/-- The trees made may be wrapped in the end. -/
theorem before {step : Build α} {m made : α → List Node} (h : D.Makes given step m)
    (hwrap : ∀ a, Wrap (m a) (made a)) : D.Makes given step made := by
  have hpure : D.Makes given (step >>= Pure.pure) made := D.bind h fun a => D.pure (hwrap a)
  rwa [bind_pure] at hpure

theorem frame_right {step : Build α} {made : α → List Node} (others : List Node)
    (h : D.Makes given step made) :
    D.Makes (given ++ others) step fun a => made a ++ others := by
  have hleft := D.frame others h
  exact D.before (D.after (.perm List.perm_append_comm) hleft) fun _ => .perm List.perm_append_comm

/-- One step after another, and the trees of both. -/
theorem append {γ : Type} {step : Build α} {rest : Build β} {f : α → β → γ} {m : α → List Node}
    {m' : β → List Node} {made : γ → List Node} (h : D.Makes [] step m) (h' : D.Makes [] rest m')
    (hmade : ∀ a b, made (f a b) = m a ++ m' b) :
    D.Makes [] (step >>= fun a => rest >>= fun b => Pure.pure (f a b)) made := by
  refine D.bind h fun a => ?_
  have hrest := D.frame (m a) h'
  rw [List.append_nil] at hrest
  refine D.bind hrest fun b => D.pure ?_
  rw [hmade]
  exact .refl _

-- ============================================================ calls

/-- A builtin is called with its own slots, unless it takes further
arguments, which look at no neighbouring rows. -/
theorem callBuiltin {name : String} {s : Symbol} (hs : Builtin.find? name = some s)
    {types : List DataType} {r : Resolved} (hr : s.resolve types = .ok r) (args : List Node) :
    D.Makes args (callBuiltin r.call args r.type) fun n => [n] := by
  have hvariadic (hkind : r.call.kind = .variadic ∨ r.call.kind = .variadicTable) :
      D.Makes args (Pure.pure (.variadic r.call args r.type)) fun n => [n] :=
    D.node (n := .variadic r.call args r.type) (Builtin.windowed_of_variadic hs hr hkind)
  rw [callBuiltin_eq]
  split
  · exact D.fail _
  · exact hvariadic (.inl ‹_›)
  · exact hvariadic (.inr ‹_›)
  · exact D.builtin r.call args r.type
  · exact D.builtin r.call args r.type

/-- A selector is a plain node around its components. -/
theorem select (user : UserType) (args : List Node) :
    D.Makes args (select user args) fun n => [n] := by
  unfold Build.select
  split
  · exact D.fail _
  · split
    · exact D.fail _
    · exact D.node (n := .selector user args) trivial

/-- An entry of the catalog that can be called is a function or a type. -/
theorem callEntry (symbol : Symbol) (name : String) (args : List Node) :
    D.Makes args (callEntry symbol name args) fun n => [n] := by
  unfold Build.callEntry
  split
  · exact D.ofExcept_bind fun resolved _ => D.function resolved.call args resolved.type
  · split
    · exact D.select _ args
    · exact D.fail _
  · exact D.fail _

/-- A name that is called is that of a builtin or of an entry. -/
theorem call (name : String) (args : List Node) :
    D.Makes args (call catalog name args) fun n => [n] := by
  unfold Build.call
  split
  · exact D.ofExcept_bind fun resolved hresolved => D.callBuiltin ‹_› hresolved args
  · split
    · exact D.callEntry _ name args
    · exact D.uncallable args name

/-- The minus of a literal is put into the literal, any other is a call. -/
theorem negate (arg : Node) : D.Makes [arg] (negate catalog arg) fun n => [n] := by
  unfold Build.negate
  split
  · rename_i d
    exact D.after (.drop (.number d)) (D.node (n := .literal (.number d.neg)) trivial)
  · exact D.call "neg" _

/-- An operator is called as the builtin that it stands for. -/
theorem binary (op : String) (lhs rhs : Node) :
    D.Makes [lhs, rhs] (binary catalog op lhs rhs) fun n => [n] := by
  unfold Build.binary
  split
  · exact D.fail _
  · exact D.call op _

/-- A fold keeps its value in a slot. -/
theorem foldOver (op : String) (arg : Node) : D.Makes [arg] (Build.fold op arg) fun n => [n] := by
  unfold Build.fold
  split
  · exact D.fail _
  · exact D.ofExcept_bind fun resolved _ => D.fold op arg resolved.type

/-- A selection is a plain node around its base. -/
theorem member (base : Node) (name : String) :
    D.Makes [base] (member base name) fun n => [n] := by
  unfold Build.member
  split
  · split
    · exact D.node (n := .tupleField base name _) trivial
    · exact D.fail _
  · split
    · exact D.node (n := .component base name _) trivial
    · exact D.fail _
  · exact D.fail _

/-- A grouping is combined from its leaves upwards, each join with the
trees of both sides. -/
theorem combine {ω : Type} {join : Node → ω → Node → Build Node}
    (h : ∀ lhs op rhs, D.Makes [lhs, rhs] (join lhs op rhs) fun n => [n]) (g : Grouping ω Node) :
    D.Makes g.operands (g.combine join) fun n => [n] := by
  induction g with
  | operand a => exact D.pure (.refl _)
  | joined left op right ihl ihr =>
      refine D.bind (D.frame_right right.operands ihl) fun l => ?_
      exact D.bind (D.frame [l] ihr) fun r => h l op r

/-- Operands are joined at their operators. -/
theorem joins (g : Grouping (String × Nat) Node) :
    D.Makes g.operands (g.combine fun lhs op rhs =>
      Build.located op.2 (Build.binary catalog op.1 lhs rhs)) fun n => [n] :=
  D.combine (fun lhs op rhs => D.located op.2 (D.binary op.1 lhs rhs)) g

/-- A chain is combined as its grouping says. -/
theorem joinChain (first : Node) (rest : List ((String × Nat) × Node)) :
    D.Makes (first :: rest.map Prod.snd) (joinChain catalog first rest) fun n => [n] := by
  have h := D.joins (.ofChain (fun op => precedence op.1) first rest)
  rwa [Grouping.operands_ofChain, ← joinChain_eq] at h

-- =================================================== rows and tables

theorem row (fields : List (String × Node)) :
    D.Makes (fields.map Prod.snd) (row fields) fun n => [n] :=
  D.ofExcept_bind fun heading _ => D.node (n := .row heading (fields.map Prod.snd)) trivial

/-- A table holds rows like the first one. -/
theorem table (rows : List (List (String × Node))) :
    D.Makes (rows.flatMap (·.map Prod.snd)) (table rows) fun n => [n] := by
  cases rows with
  | nil => exact D.node (n := .table [] []) trivial
  | cons fields rest =>
      refine D.ofExcept_bind fun heading hheading => D.ofExcept_bind fun nodes hnodes => ?_
      have hrow : Wrap (fields.map Prod.snd) [.row heading (fields.map Prod.snd)] :=
        .node (n := .row heading (fields.map Prod.snd)) trivial
      have hrows := hrow.append (rowsLike_wrap (nodup_names_rowHeading hheading) hnodes)
      exact D.after hrows (D.node (n := .table heading (.row heading _ :: nodes)) trivial)

/-- A written heading is looked up, and makes nothing. -/
theorem heading_bind {columns : List (String × TypeExpr)} {f : Heading → Build α}
    {made : α → List Node} (h : ∀ heading, D.Makes given (f heading) made) :
    D.Makes given (heading catalog columns >>= f) made := by
  unfold heading
  split
  · exact h _
  · exact D.throw _

-- ========================================================= the walk

mutual

/-- The property holds of every expression. -/
theorem walk (keepOpen : Bool) : ∀ e : Expr, D.Builds keepOpen e
  -- the walk follows `expression`; a list alone may stay open
  | .number _ value => D.closed rfl (D.node (n := .literal (.number value)) trivial)
  | .text _ value => D.closed rfl (D.node (n := .literal (.text value)) trivial)
  | .bool _ value => D.closed rfl (D.node (n := .literal (.bool value)) trivial)
  | .time _ value => D.closed rfl (D.node (n := .literal (.time value)) trivial)
  | .name mark name => D.closed rfl (D.located mark (D.name name))
  | .currentRow mark => D.closed rfl (D.located mark D.currentRow)
  | .call mark name args =>
      D.closed rfl (D.located mark (D.bind (walkAll args) (D.call name)))
  | .fold mark op arg =>
      D.closed rfl (D.located mark (D.bind (D.makes (walk false arg)) (D.foldOver op)))
  | .chain mark first steps => by
      refine D.closed rfl (D.located mark (D.bind (D.makes (walk false first)) fun n => ?_))
      -- the first operand stands beside the others while these are built
      exact D.bind (D.frame [n] (walkSteps steps)) (D.joinChain n)
  | .not mark arg =>
      D.closed rfl (D.located mark (D.bind (D.makes (walk false arg)) fun n => D.call "not" [n]))
  | .neg mark arg =>
      D.closed rfl (D.located mark (D.bind (D.makes (walk false arg)) D.negate))
  | .member mark base name =>
      D.closed rfl (D.located mark (D.bind (D.makes (walk false base)) fun n => D.member n name))
  | .restrict mark base predicate =>
      D.closed rfl (D.located mark (D.bind (D.makes (walk false base)) fun n =>
        D.restrict n predicate (D.makes (walk false predicate))))
  | .fields _ base ⟨_, _, entries⟩ => D.fields (walk true base) (walkEntries entries)
  | .row mark bindings => D.closed rfl (D.located mark (D.bind (walkValues bindings) D.row))
  | .table mark rows => D.closed rfl (D.located mark (D.bind (walkRows rows) D.table))
  | .emptyTable mark columns =>
      D.closed rfl (D.located mark (D.heading_bind fun h => D.node (n := .table h []) trivial))
  | .block mark bindings body =>
      D.closed rfl (D.located mark (D.block (walkBindings bindings) (D.makes (walk false body))))

/-- Arguments are built one after another. -/
theorem walkAll : ∀ es : List Expr, D.Makes [] (expressions catalog es) id
  | [] => D.pure (.refl _)
  | e :: rest => D.append (D.makes (walk false e)) (walkAll rest) fun _ _ => rfl

/-- Operands of a chain are built one after another. -/
theorem walkSteps : ∀ steps : List Step,
    D.Makes [] (operands catalog steps) fun ops => ops.map Prod.snd
  | [] => D.pure (.refl _)
  | ⟨_, _, operand⟩ :: rest =>
      D.append (D.makes (walk false operand)) (walkSteps rest) fun _ _ => rfl

/-- Entries of a list add to what the rest of the list does. -/
theorem walkEntries : ∀ entries : List FieldEntry, D.Lists entries
  | [] => D.lists_nil
  | .plain _ _ :: rest => D.lists_plain (walkEntries rest)
  | .computed _ _ value :: rest =>
      D.lists_computed (D.makes (walk false value)) (walkEntries rest)

/-- Columns of a row are built one after another. -/
theorem walkValues : ∀ bindings : List Binding,
    D.Makes [] (bindingValues catalog bindings) fun fields => fields.map Prod.snd
  | [] => D.pure (.refl _)
  | ⟨_, value⟩ :: rest =>
      D.append (D.makes (walk false value)) (walkValues rest) fun _ _ => rfl

/-- Rows of a table are built one after another. -/
theorem walkRows : ∀ rows : List (List Binding),
    D.Makes [] (tableRows catalog rows) fun rows => rows.flatMap (·.map Prod.snd)
  | [] => D.pure (.refl _)
  | bindings :: rest =>
      D.append (walkValues bindings) (walkRows rest) fun _ _ => List.flatMap_cons

/-- Bindings of a block add to what the rest of them does. -/
theorem walkBindings : ∀ bindings : List Binding, D.Binds bindings
  | [] => D.binds_nil
  | ⟨_, value⟩ :: rest => D.binds_cons (D.makes (walk false value)) (walkBindings rest)

end

/-- What is built to its end leaves nothing open. -/
theorem expression (e : Expr) : D.Makes [] (expression catalog false e) fun n => [n] :=
  D.makes (D.walk false e)

end Discipline

end RelQuery
