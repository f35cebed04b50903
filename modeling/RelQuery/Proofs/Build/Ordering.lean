/-
The operation that ends the code of a node.

A call with further arguments has two operations, one for calls that
make a relation. Renames, computed columns and builtins choose between
them by the type of the node; tuples, tables and selectors have it in
their shape. An ordering does neither: it always calls for a relation,
although a field list may stand over a tuple or a value of a user type
as well, and then the ordering has the type of that.

What an ordering can stand over is settled where its list is opened,
and copying a bound value keeps it, as the type of the copy is that of
the value. So `OrdersColumns` holds of every node that is built; it is
the only fact about building that the choice of operations needs.
-/
import RelQuery.Node.Lowering
import RelQuery.Proofs.Build.Capture
import RelQuery.Proofs.Build.Listing
import RelQuery.Proofs.Build.Window
import RelQuery.Proofs.Node.Heed

namespace RelQuery

namespace Node

/-- The node orders a base that has columns, if it orders one. -/
def OrdersColumns : Node → Prop
  | .order base _ => base.dataType.heading?.isNone = false
  | _ => True

/-- Only an ordering can order something without columns. -/
theorem ordersColumns_of_isOrder {n : Node} (h : n.isOrder = false) : n.OrdersColumns := by
  cases n with
  | order base keys => cases h
  | _ => trivial

/-- A plain node orders nothing. -/
theorem IsPlain.ordersColumns {n : Node} (h : n.IsPlain) : n.OrdersColumns := by
  cases n with
  | order base keys => cases h
  | _ => trivial

/-- What a copy orders has the type of what the value orders. -/
theorem ordersColumns_copy {n n' : Node} (hbare : n'.bare = n.bare)
    (hoperands : List.Forall₂ (fun m m' => m'.dataType = m.dataType) n.operands n'.operands)
    (h : n.OrdersColumns) : n'.OrdersColumns := by
  cases n' with
  | order base' keys' =>
      cases n with
      | order base keys =>
          cases hoperands with
          | cons hsame _ =>
              show base'.dataType.heading?.isNone = false
              rw [hsame]
              exact h
      | _ => cases hbare
  | _ => trivial

/-- A copy orders what the value does, since its base has the same type. -/
theorem copy_ordersColumns {n n' : Node} (hbare : n'.bare = n.bare)
    (hoperands : List.Forall₂ (fun m m' => m'.dataType = m.dataType ∧
      (m.Everywhere OrdersColumns → m'.Everywhere OrdersColumns)) n.operands n'.operands) :
    n'.dataType = n.dataType ∧ (n.Everywhere OrdersColumns → n'.Everywhere OrdersColumns) := by
  have htypes := hoperands.imp fun _ _ h => h.1
  refine ⟨dataType_eq_of_bare hbare htypes, fun h => ?_⟩
  rw [everywhere_iff] at h ⊢
  obtain ⟨hn, hops, hbound, hsegments⟩ := h
  rw [← bound_bare, hbare, bound_bare, ← segments_bare, hbare, segments_bare]
  refine ⟨ordersColumns_copy hbare htypes hn, fun m' hm' => ?_, hbound, hsegments⟩
  obtain ⟨m, hm, -, hcopy⟩ := Scopes.forall₂_mem_right hoperands hm'
  exact hcopy (hops m hm)

end Node

open Node (Everywhere AllHave OrdersColumns)

/-- All bound values order what has columns. -/
def Workspace.OrdersColumns (w : Workspace) : Prop :=
  ∀ l ∈ w.locals, l.value.Everywhere Node.OrdersColumns

/-- Only bound values are looked at. -/
theorem Workspace.OrdersColumns.of_locals {w w' : Workspace} (h : w.OrdersColumns)
    (hlocals : w'.locals = w.locals) : w'.OrdersColumns := by
  unfold Workspace.OrdersColumns
  rw [hlocals]
  exact h

namespace Build

variable {catalog : Catalog} {w w' w₁ : Workspace}

/-- The nodes that the step makes order what has columns, if those that
it was given and the bound values do; and the bound values still do. -/
def Orders (w : Workspace) (given : List Node) (w' : Workspace) (made : List Node) : Prop :=
  w.OrdersColumns → AllHave OrdersColumns given →
    w'.OrdersColumns ∧ AllHave OrdersColumns made

namespace Orders

variable {given made others : List Node}

theorem trans {w₂ : Workspace} (h : Orders w given w₁ made) (h' : Orders w₁ made w₂ others) :
    Orders w given w₂ others :=
  fun hw hg => h' (h hw hg).1 (h hw hg).2

/-- Trees that a step does not look at stay as they are. -/
theorem frame (others : List Node) (h : Orders w given w' made) :
    Orders w (others ++ given) w' (others ++ made) := by
  intro hw hg
  obtain ⟨hothers, hgiven⟩ := List.forall_mem_append.mp hg
  exact ⟨(h hw hgiven).1, List.forall_mem_append.mpr ⟨hothers, (h hw hgiven).2⟩⟩

/-- A node that is no ordering, put around the trees given. -/
theorem node {n : Node} (hlocals : w'.locals = w.locals) (horder : n.isOrder = false)
    (hbound : n.bound = []) (hsegments : n.segments = []) : Orders w n.operands w' [n] := by
  intro hw hg
  refine ⟨?_, Node.allHave_singleton.mpr ?_⟩
  · exact hw.of_locals hlocals
  · exact Node.everywhere_of_operands hbound hsegments (Node.ordersColumns_of_isOrder horder) hg

end Orders

theorem Tallies.locals_eq {α : Type} {step : Build α} {a : α} (h : Tallies step)
    (ha : step w = .ok a w') : w'.locals = w.locals := by
  obtain ⟨counters, rfl⟩ := h w a w' ha
  rfl

-- =================================================== calls and names

/-- A builtin orders nothing itself. -/
theorem builtin_orders (link : Signature) (args : List Node) (type : DataType) :
    Relates Orders args (noteWindow link >>= fun _ => allocateFor link >>= fun slot =>
      pure (.call link args type slot)) fun n => [n] := by
  intro w n w' h
  obtain ⟨u, w₁, hnote, h⟩ := bind_eq_ok.mp h
  obtain ⟨slot, w₂, hslot, h⟩ := bind_eq_ok.mp h
  cases h
  have hlocals := ((allocateFor_tallies link).locals_eq hslot).trans
    ((noteWindow_tallies link).locals_eq hnote)
  exact .node (n := .call link args type slot) hlocals rfl rfl rfl

/-- A function orders nothing itself. -/
theorem function_orders (link : Signature) (args : List Node) (type : DataType) :
    Relates Orders args (allocateFor link >>= fun slot => pure (.function link args type slot))
      fun n => [n] := by
  intro w n w' h
  obtain ⟨slot, w₁, hslot, h⟩ := bind_eq_ok.mp h
  cases h
  exact .node (n := .function link args type slot) ((allocateFor_tallies link).locals_eq hslot)
    rfl rfl rfl

/-- A fold orders nothing itself. -/
theorem fold_orders (op : String) (arg : Node) (type : DataType) :
    Relates Orders [arg] (allocate "fold" 1 >>= fun slot => pure (.fold op slot arg type))
      fun n => [n] := by
  intro w n w' h
  obtain ⟨slot, w₁, hslot, h⟩ := bind_eq_ok.mp h
  cases h
  exact .node (n := .fold op slot arg type) ((allocate_tallies _ _).locals_eq hslot) rfl rfl rfl

/-- A variable orders nothing. -/
theorem variable_orders (name : String) (source : VariableSource) (type : DataType) :
    Relates Orders [] (pure (.variable name source type)) fun n => [n] := by
  intro w n w' h
  cases h
  exact .node (n := .variable name source type) rfl rfl rfl rfl

/-- A use of a binding is a copy of what was shown of the value. -/
theorem useLocal_orders (name : String) (slot : Nat) :
    Relates Orders [] (useLocal name slot) fun n => [n] := by
  intro w n w' h hw _
  obtain ⟨bound, copy, hbound, rfl, hcopy⟩ := useLocal_steps h
  obtain ⟨⟨counters, rfl⟩, -, horders⟩ := relocate_related (R := fun m m' =>
    m'.dataType = m.dataType ∧ (m.Everywhere OrdersColumns → m'.Everywhere OrdersColumns))
    (fun _ _ => Node.copy_ordersColumns) hcopy
  refine ⟨hw, Node.allHave_singleton.mpr (Node.everywhere_of_operands rfl rfl trivial ?_)⟩
  exact Node.allHave_singleton.mpr (horders (hw bound (List.mem_of_getElem? hbound)))

/-- A name is a variable or a use of a binding. -/
theorem useName_orders (catalog : Catalog) (name : String) :
    Relates Orders [] (useName catalog name) fun n => [n] := by
  -- resolving a name makes no tree, and all that it can stand for orders
  have hresolve : Relates Orders [] (resolve name) fun _ => [] := by
    intro w found w' h hw hg
    cases h
    exact ⟨hw, hg⟩
  refine .bind (R := Orders) .trans hresolve fun found => ?_
  cases found with
  | some symbol =>
      show Relates Orders [] (useSymbol symbol) _
      unfold useSymbol
      split
      · exact variable_orders _ _ _
      · exact variable_orders _ _ _
      · exact variable_orders _ _ _
      · exact variable_orders _ _ _
      · exact useLocal_orders _ _
      · exact .throw _
  | none =>
      show Relates Orders [] (useGlobal catalog name) _
      unfold useGlobal
      split
      · split
        · exact variable_orders _ _ _
        · exact variable_orders _ _ _
        · exact .throw _
      · split
        · exact .throw _
        · exact .throw _

/-- The row being looked at orders nothing. -/
theorem currentRow_orders : Relates Orders [] currentRow fun n => [n] := by
  intro w n w' h
  obtain ⟨heading, -, rfl, rfl⟩ := currentRow_eq_ok h
  exact .node (n := .currentRow (.tuple heading)) rfl rfl rfl rfl

-- ============================================================ levels

theorem leave_locals {captured : Captured} (h : leave w = .ok captured w') :
    w'.locals = w.locals := by
  obtain ⟨parent, rest, entry, entries, -, -, -, rfl⟩ := leave_eq_ok h
  rfl

/-- A restriction orders nothing itself, and its predicate stands in a
segment. -/
theorem restrict_orders (base : Node) (predicate : Expr)
    (h : Relates Orders [] (expression catalog false predicate) fun n => [n]) :
    Relates Orders [base] (enterRestrict base >>= fun _ => expression catalog false predicate >>=
      fun p => restrict base p) fun n => [n] := by
  intro w n w' hn hw hg
  obtain ⟨p, w₂, captured, -, hp, hleave, rfl⟩ := restriction_steps hn
  obtain ⟨hw₂, hbody⟩ := h _ p w₂ hp hw Node.allHave_nil
  refine ⟨?_, Node.allHave_singleton.mpr (Node.everywhere_iff.mpr ⟨trivial, hg, ?_, ?_⟩)⟩
  · exact hw₂.of_locals (leave_locals hleave)
  · exact fun _ h => absurd h List.not_mem_nil
  · exact List.forall_mem_singleton.mpr (Node.allHave_singleton.mp hbody)

/-- Bound values order what has columns. -/
def BindsOrders (catalog : Catalog) (bindings : List Binding) : Prop :=
  ∀ w u w', blockBindings catalog bindings w = .ok u w' → w.OrdersColumns → w'.OrdersColumns

/-- A binding adds its value to those shown. -/
theorem bindsOrders_cons {name : String} {value : Expr} {rest : List Binding}
    (h : Relates Orders [] (expression catalog false value) fun n => [n])
    (hrest : BindsOrders catalog rest) : BindsOrders catalog (⟨name, value⟩ :: rest) := by
  intro w u w' hu hw
  obtain ⟨u₂, w₃, hrun, hu⟩ := blockBindings_steps hu
  obtain ⟨n, w₂, hvalue, hbind⟩ := binding_steps hrun
  refine hrest w₃ u w' hu ?_
  obtain ⟨hw₂, hn⟩ := h _ n w₂ hvalue hw Node.allHave_nil
  obtain ⟨reads, hlocals⟩ := bindLocal_locals hbind
  unfold Workspace.OrdersColumns
  rw [hlocals, List.forall_mem_append, List.forall_mem_singleton]
  exact ⟨hw₂, Node.allHave_singleton.mp hn⟩

/-- A block is shown by its body, and its bindings are forgotten. -/
theorem block_orders {bindings : List Binding} {body : Expr}
    (hbindings : BindsOrders catalog bindings)
    (h : Relates Orders [] (expression catalog false body) fun n => [n]) :
    Relates Orders [] (enterBlock >>= fun first => blockBindings catalog bindings >>= fun _ =>
      expression catalog false body >>= fun n => block first n) fun n => [n] := by
  intro w n w' hn hw _
  obtain ⟨u, w₂, value, w₃, captured, w₄, hbind, hvalue, hleave, rfl, rfl⟩ := block_steps hn
  obtain ⟨hw₃, hbody⟩ := h w₂ value w₃ hvalue (hbindings _ u w₂ hbind hw) Node.allHave_nil
  have hw₄ : w₄.OrdersColumns := hw₃.of_locals (leave_locals hleave)
  refine ⟨fun l hl => hw₄ l (List.mem_of_mem_take hl), Node.allHave_singleton.mpr ?_⟩
  refine Node.everywhere_iff.mpr ⟨trivial, hbody, fun bound hbound => ?_,
    fun _ h => absurd h List.not_mem_nil⟩
  rw [Node.bound, List.map_map] at hbound
  obtain ⟨l, hl, rfl⟩ := List.mem_map.mp hbound
  exact hw₄ l (List.mem_of_mem_drop hl)

-- ======================================================= field lists

/-- The bodies of computed fields order what has columns. -/
def OrdersFields (w : Workspace) (segments : List Segment) (w' : Workspace) : Prop :=
  w.OrdersColumns → w'.OrdersColumns ∧ ∀ s ∈ segments, s.body.Everywhere OrdersColumns

/-- The segment of a field has what was built for it as its body. -/
theorem computedField_orders {name : String} {mark : Nat} {value : Expr} {segment : Segment}
    (h : Relates Orders [] (expression catalog false value) fun n => [n]) (hw : w.OrdersColumns)
    (hs : computedField catalog name mark value w = .ok segment w') :
    w'.OrdersColumns ∧ segment.body.Everywhere OrdersColumns := by
  obtain ⟨f, frames, node, w₂, captured, -, hnode, hleave, rfl⟩ := field_steps hs
  obtain ⟨hw₂, hbody⟩ := h _ node w₂ hnode hw Node.allHave_nil
  exact ⟨hw₂.of_locals (leave_locals hleave), Node.allHave_singleton.mp hbody⟩

/-- A list keeps the columns of its base for its ordering. -/
theorem fieldNode_ordersColumns {base : Node} {heading output : Heading} {type : DataType}
    {order : List Segment} {items : List FieldItem} {accums : Nat}
    (h : base.dataType.heading?.isNone = false) :
    (fieldNode base heading output type order items accums).OrdersColumns := by
  unfold fieldNode
  split
  · exact h
  · split
    · trivial
    · trivial
    · trivial

/-- A list is closed without a change of what is bound. -/
theorem Leaves.locals_eq {isOpen : Bool} (h : Leaves isOpen w w') : w'.locals = w.locals := by
  unfold Leaves at h
  split at h
  · obtain ⟨type, rfl⟩ := h
    rfl
  · rw [h]

/-- A load orders nothing. -/
theorem isLoad_orders {s : Segment} (h : s.IsLoad) : s.body.Everywhere OrdersColumns := by
  obtain ⟨name, type, hbody, -, -⟩ := h
  rw [hbody]
  exact Node.everywhere_of_operands rfl rfl trivial Node.allHave_nil

/-- Only the bases of field lists are ordered, and these have
columns. -/
theorem fields_orders {keepOpen : Bool} {mark : Nat} {base : Expr} {allBut : Bool}
    {order : List OrderKey} {entries : List FieldEntry}
    (hbase : Relates Orders [] (expression catalog true base) fun n => [n])
    (hentries : RelatesFields catalog OrdersFields entries) :
    Relates Orders [] (expression catalog keepOpen (.fields mark base ⟨allBut, order, entries⟩))
      fun n => [n] := by
  intro w n w' hn hw hg
  -- the base comes first and has columns, or there would be no list
  obtain ⟨node, w₁, hnode, hlist⟩ := bind_eq_ok.mp (located_eq_ok.mp hn)
  obtain ⟨hw₁, hnode'⟩ := hbase w node w₁ hnode hw hg
  obtain ⟨slots, w₀, -, -, -, hleft⟩ := expression_builds catalog true base w node w₁ hnode
  obtain ⟨t, keys, fields, w₂, w₃, hheading, hkeys, hfields, hfinish⟩ := list_run hleft hlist
  obtain ⟨hgrows, -⟩ := orderKeys_eq_ok hkeys
  have hw₂ : w₂.OrdersColumns := hw₁.of_locals (hgrows.locals.trans hleft.locals_eq.symm)
  obtain ⟨hw₃, hcomputed⟩ := hentries w₂ fields w₃ hfields hw₂
  obtain ⟨slots', hwidens, -, -⟩ := fieldEntries_lists catalog entries w₂ fields w₃ hfields
  obtain ⟨⟨captured, w₄, hleave, hleaves⟩, hover⟩ :=
    finishFields_leaves (hgrows.toWidens.trans hwidens) hfinish
  -- so the node of the list is an ordering of columns, if it is one
  have hn' : n.OrdersColumns := by
    obtain ⟨f, rest, items, output, c, -, -, -, -, rfl⟩ := finishFields_steps hfinish
    exact fieldNode_ordersColumns hheading
  constructor
  · have hlocals := leave_locals hleave
    exact hw₃.of_locals (hleaves.locals_eq.trans hlocals)
  · rw [Node.allHave_singleton, Node.everywhere_iff, hover.operands, hover.isList.bound_eq]
    -- its segments are keys, computed fields and loads
    refine ⟨hn', hnode', fun _ h => absurd h List.not_mem_nil, fun s hs => ?_⟩
    rcases hover.segments s hs with hs | hs | hs
    · exact isLoad_orders (orderKeys_load hkeys s hs)
    · exact hcomputed s hs
    · exact isLoad_orders hs

/-- Orderings are followed through every expression. -/
def orderDiscipline (catalog : Catalog) : Discipline catalog where
  Makes := Relates Orders
  Builds := fun keepOpen e => Relates Orders [] (expression catalog keepOpen e) fun n => [n]
  Binds := BindsOrders catalog
  Lists := RelatesFields catalog OrdersFields
  pure := fun h w a w' ha => by
    obtain ⟨rfl, rfl⟩ := pure_eq_ok.mp ha
    exact fun hw hg => ⟨hw, h.allHave (fun _ => Node.IsPlain.ordersColumns) hg⟩
  throw := Relates.throw
  bind := Relates.bind .trans
  frame := fun others h w a w' ha => (h w a w' ha).frame others
  located := fun _ => Relates.located
  uncallable := fun _ => Relates.uncallable
  builtin := builtin_orders
  function := function_orders
  fold := fold_orders
  name := useName_orders catalog
  currentRow := currentRow_orders
  restrict := restrict_orders
  binds_nil := fun w u w' h hw => by
    cases h
    exact hw
  binds_cons := bindsOrders_cons
  block := block_orders
  lists_nil := .nil fun _ hw => ⟨hw, fun _ h => absurd h List.not_mem_nil⟩
  lists_plain := .plain
  lists_computed := fun h hrest => hrest.computed fun hsegment hothers hw => by
    obtain ⟨hw₁, hbody⟩ := computedField_orders h hw hsegment
    obtain ⟨hw', hbodies⟩ := hothers hw₁
    exact ⟨hw', List.forall_mem_cons.mpr ⟨hbody, hbodies⟩⟩
  closed := fun _ h => h
  makes := fun h => h
  fields := fields_orders

/-- Every node of a statement orders what has columns. -/
theorem statement_ordersColumns {c : Context} {sentence : Sentence} {s : Statement}
    (h : statement catalog sentence { context := c } = .ok s w') :
    ∀ root ∈ s.root?, root.Everywhere OrdersColumns := by
  have hbuilt {e : Expr} {node : Node} {w w₁ : Workspace} (hlocals : w.locals = [])
      (hnode : expression catalog false e w = .ok node w₁) : node.Everywhere OrdersColumns := by
    have hw : w.OrdersColumns := fun l hl => by
      rw [hlocals] at hl
      exact absurd hl List.not_mem_nil
    have horders := (orderDiscipline catalog).expression e w node w₁ hnode hw Node.allHave_nil
    exact Node.allHave_singleton.mp horders.2
  rcases statement_cases h with ⟨e, node, hnode, rfl⟩ | ⟨e, node, name, w₁, hnode, hs⟩ |
    ⟨e, mark, name, params, returns, hs⟩ | ⟨user, rfl, rfl⟩
  · rintro root ⟨⟩
    exact hbuilt rfl hnode
  · obtain ⟨-, rfl⟩ := assign_looks catalog name node w₁ s w' hs
    rintro root ⟨⟩
    exact hbuilt rfl hnode
  · obtain ⟨body, w₂, captured, link, hbody, -, -, -, rfl⟩ := definition_steps hs
    rintro root ⟨⟩
    exact hbuilt rfl hbody
  · rintro root ⟨⟩

end Build

-- ======================================================== operations

namespace Instruction

/-- The instruction is a call with further arguments. -/
def isVariadic : Instruction → Bool
  | .callVariadic .. | .callVariadicTable .. => true
  | _ => false

/-- The instruction is a call with further arguments that makes a
relation. -/
def isTableCall : Instruction → Bool
  | .callVariadicTable .. => true
  | _ => false

/-- A call is made for a relation or for a single value. -/
theorem isTableCall_callFor (isRelation : Bool) (name : String) (fixed more : Nat) :
    (callFor isRelation name fixed more).isTableCall = isRelation := by
  cases isRelation <;> rfl

end Instruction

namespace Node

open Instruction

/-- The instruction that ends the code of the node, if the node has
code of its own: a use of a binding and a block have that of their
values alone. -/
def lastOwn? : Node → Option Instruction
  | .inlined .. | .block .. => none
  | n => n.lower.getLast?

/-- The node orders a row: a base that has columns and is no
relation. -/
def ordersRow : Node → Bool
  | .order base _ => !base.dataType.isRelation
  | _ => false

/-- The instruction that a tree ends with is its own, so it is the last one
of its code. -/
theorem lastOwn?_of_suffix {n : Node} {last i : Instruction} (h : [last] <:+ n.lower)
    (hi : i ∈ n.lastOwn?) : i = last := by
  obtain ⟨code, hcode⟩ := h
  cases n with
  | inlined _ _ | block _ _ => cases hi
  | _ =>
      have hlast : i ∈ (code ++ [last]).getLast? := hcode ▸ hi
      rw [List.getLast?_concat] at hlast
      exact (Option.some.inj hlast).symm

theorem suffix_behind (before code : List Instruction) (last : Instruction) :
    [last] <:+ before ++ (code ++ [last]) :=
  (List.suffix_append code [last]).trans (List.suffix_append before _)

/-- A call with further arguments makes a relation just where its node
is one, and in an ordering. -/
theorem isTableCall_of_lastOwn? {n : Node} {i : Instruction} (hfunction : n.isFunction = false)
    (hi : i ∈ n.lastOwn?) (hvariadic : i.isVariadic = true) :
    i.isTableCall = (n.dataType.isRelation || n.ordersRow) := by
  have other (last : Instruction) (h : [last] <:+ n.lower) (hlast : last.isVariadic = false) :
      i.isTableCall = (n.dataType.isRelation || n.ordersRow) := by
    rw [lastOwn?_of_suffix h hi, hlast] at hvariadic
    cases hvariadic
  have variadic (last : Instruction) (h : [last] <:+ n.lower)
      (hlast : last.isTableCall = (n.dataType.isRelation || n.ordersRow)) :
      i.isTableCall = (n.dataType.isRelation || n.ordersRow) := by
    rw [lastOwn?_of_suffix h hi, hlast]
  have byType (type : DataType) (name : String) (fixed more : Nat) :
      (callFor type.isRelation name fixed more).isTableCall = (type.isRelation || false) := by
    rw [isTableCall_callFor, Bool.or_false]
  cases n with
  | inlined _ _ | block _ _ => cases hi
  | function _ _ _ _ => cases hfunction
  -- no call with further arguments
  | literal value => exact other (.loadValue value) (List.suffix_refl _) rfl
  | currentRow type => exact other .loadLookup (List.suffix_refl _) rfl
  | code segment =>
      obtain ⟨name, kind, accums, flags, lookup, body⟩ := segment
      exact other (segment name kind accums flags lookup body.lower) (List.suffix_refl _) rfl
  | «variable» name source type =>
      cases source with
      | catalog => exact other (.loadCatalog name) (List.suffix_refl _) rfl
      | reference => exact other (.loadCatalogRef name) (List.suffix_refl _) rfl
      | field | parameter => exact other (.loadField name) (List.suffix_refl _) rfl
      | component => exact other (.loadComponent name) (List.suffix_cons _ _) rfl
  | call link args type slot => exact other (.call link.name _) (suffix_behind ..) rfl
  | fold op slot arg type =>
      have hlast := (suffix_behind [loadText op] arg.lower (.call "fold" 4))
      exact other (.call "fold" 4) (hlast.trans (List.suffix_append ..)) rfl
  | project base heading type =>
      exact other (.call "project" 2) (suffix_behind base.lower [loadHeading heading] _) rfl
  | restrict base predicate =>
      obtain ⟨name, kind, accums, flags, lookup, body⟩ := predicate
      exact other (.call "restrict" 2) (suffix_behind base.lower [segment ..] _) rfl
  | component base name type => exact other (.loadComponent name) (List.suffix_append ..) rfl
  | tupleField base name type => exact other (.loadTupleField name) (List.suffix_append ..) rfl
  -- the type of the node decides
  | variadic link args type => exact variadic _ (List.suffix_append ..) (byType type ..)
  | rename base pairs type => exact variadic _ (suffix_behind ..) (byType type ..)
  | transform base kind keys fields accums type =>
      have hlast := suffix_behind (lowerSegments keys) (lowerSegments fields)
        (callFor type.isRelation kind.callName 1 (keys.length + fields.length))
      exact variadic _ (hlast.trans (List.suffix_append ..)) (byType type ..)
  -- the shape of the node decides
  | row heading values =>
      exact variadic (.callVariadic "row" 1 values.length)
        (suffix_behind [loadHeading heading] ..) rfl
  | table heading rows =>
      exact variadic (.callVariadicTable "table" 1 rows.length)
        (suffix_behind [loadHeading heading] ..) rfl
  | selector user args =>
      exact variadic (.callVariadic "select" 1 args.length)
        (suffix_behind [loadText user.name] ..) rfl
  | order base keys =>
      exact variadic (.callVariadicTable "order" 1 keys.length) (suffix_behind ..)
        (Bool.or_not_self base.dataType.isRelation).symm

/-- An ordering of a row calls for a relation, whatever it orders. -/
theorem OrdersColumns.row {n : Node} {i : Instruction} (h : n.OrdersColumns)
    (hrow : n.ordersRow = true) (hi : i ∈ n.lastOwn?) :
    (∃ keys, i = .callVariadicTable "order" 1 keys) ∧
      ((∃ heading, n.dataType = .tuple heading) ∨ ∃ user, n.dataType = .user user) := by
  cases n with
  | order base keys =>
      refine ⟨⟨keys.length, lastOwn?_of_suffix (suffix_behind ..) hi⟩, ?_⟩
      have hcolumns : base.dataType.heading?.isNone = false := h
      have hrow : (!base.dataType.isRelation) = true := hrow
      show (∃ heading, base.dataType = .tuple heading) ∨ ∃ user, base.dataType = .user user
      cases htype : base.dataType with
      | tuple heading => exact .inl ⟨heading, rfl⟩
      | user user => exact .inr ⟨user, rfl⟩
      | relation heading =>
          rw [htype] at hrow
          cases hrow
      | _ =>
          rw [htype] at hcolumns
          cases hcolumns
  | _ => cases hrow

end Node

namespace Build

/-- In a statement that is built, a call with further arguments that
ends the code of a node makes a relation exactly if the node is one. Two
kinds of nodes are apart: calls of user functions, and orderings of a
row. An ordering calls for a relation always, and where it makes none it
stands over a tuple or a value of a user type. -/
theorem call_operation_follows_type_unless_row_order {catalog : Catalog} {c : Context}
    {sentence : Sentence} {s : Statement} {w' : Workspace}
    (h : statement catalog sentence { context := c } = .ok s w') :
    ∀ root ∈ s.root?, ∀ n ∈ root.nodes, n.isFunction = false →
      ∀ i ∈ n.lastOwn?, i.isVariadic = true →
        (n.ordersRow = false → (i.isTableCall = true ↔ n.dataType.isRelation = true)) ∧
        (n.ordersRow = true → (∃ keys, i = .callVariadicTable "order" 1 keys) ∧
          ((∃ heading, n.dataType = .tuple heading) ∨ ∃ user, n.dataType = .user user)) := by
  intro root hroot n hn hfunction i hi hvariadic
  have hcall := Node.isTableCall_of_lastOwn? hfunction hi hvariadic
  refine ⟨fun hrow => ?_, fun hrow => ?_⟩
  · rw [hcall, hrow, Bool.or_false]
  · exact Node.OrdersColumns.row (statement_ordersColumns h root hroot n hn) hrow hi

/-- A field list over one tuple. -/
def overTuple (l : FieldList) : Sentence :=
  .expression (.fields 0 (.row 0 [⟨"a", .bool 0 true⟩]) l)

/-- The code of the statement's tree ends with a call with further
arguments, and the tree orders a row or does not. -/
def endsInCall (row : Bool) (s : Statement) : Bool :=
  s.root?.any fun root =>
    root.ordersRow == row && !root.isFunction && root.lastOwn?.any (·.isVariadic)

/-- A check by evaluation finds a call that its tree ends with. -/
theorem endsInCall_eq_true {row : Bool} {s : Statement} (h : endsInCall row s = true) :
    ∃ root ∈ s.root?, ∃ i ∈ root.lastOwn?, root.ordersRow = row ∧ root.isFunction = false ∧
      i.isVariadic = true := by
  simp only [endsInCall, Option.any_eq_true, Bool.and_eq_true, beq_iff_eq, Bool.not_eq_true'] at h
  obtain ⟨root, hroot, ⟨hrow, hfunction⟩, i, hi, hvariadic⟩ := h
  exact ⟨root, hroot, i, hi, hrow, hfunction, hvariadic⟩

/-- A tuple with an ordering key alone is ordered by a call for a
relation; with a field besides, the call makes no relation. -/
theorem call_operation_follows_type_unless_row_order_tuple :
    (∃ s w' root keys, statement {} (overTuple (orderedBy "a")) { context := .fresh } = .ok s w' ∧
      root ∈ s.root? ∧ .callVariadicTable "order" 1 keys ∈ root.lastOwn? ∧
      root.dataType.isRelation = false) ∧
    ∃ s w' root i, statement {} (overTuple ⟨false, [⟨"a", false, false, 0⟩], [.plain "a" 0]⟩)
        { context := .fresh } = .ok s w' ∧ root ∈ s.root? ∧ i ∈ root.lastOwn? ∧
      (i.isTableCall = true ↔ root.dataType.isRelation = true) := by
  have hordered : endsWith (fun s _ => endsInCall true s)
      (statement {} (overTuple (orderedBy "a")) { context := .fresh }) = true := by decide +kernel
  have hlisted : endsWith (fun s _ => endsInCall false s)
      (statement {} (overTuple ⟨false, [⟨"a", false, false, 0⟩], [.plain "a" 0]⟩)
        { context := .fresh }) = true := by decide +kernel
  obtain ⟨s, w', hs, hcheck⟩ := endsWith_eq_true hordered
  obtain ⟨t, v', ht, hcheck'⟩ := endsWith_eq_true hlisted
  obtain ⟨root, hroot, i, hi, hrow, hfunction, hvariadic⟩ := endsInCall_eq_true hcheck
  obtain ⟨root', hroot', i', hi', hrow', hfunction', hvariadic'⟩ := endsInCall_eq_true hcheck'
  have hself (n : Node) : n ∈ n.nodes := Node.mem_nodes_iff.mpr (.inl rfl)
  have hcall := call_operation_follows_type_unless_row_order hs root hroot root (hself root)
    hfunction i hi hvariadic
  have hcall' := call_operation_follows_type_unless_row_order ht root' hroot' root' (hself root')
    hfunction' i' hi' hvariadic'
  obtain ⟨⟨keys, rfl⟩, htype⟩ := hcall.2 hrow
  refine ⟨⟨s, w', root, keys, hs, hroot, hi, ?_⟩, t, v', root', i', ht, hroot', hi', hcall'.1 hrow'⟩
  obtain ⟨heading, htype⟩ | ⟨user, htype⟩ := htype
  · rw [htype]
    rfl
  · rw [htype]
    rfl

end Build

end RelQuery
