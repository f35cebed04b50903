/-
What a closed level leaves behind.

A level with a counter of its own is closed without a trace in the
counters around it. The node of a field list stands over its base and
holds the keys, the computed fields and, for columns that are carried
over, segments that load them; whether its level is closed or handed on
to the next list, the workspace below is that of a closed level.
-/
import RelQuery.Proofs.Build.Header
import RelQuery.Proofs.Build.Copy

namespace RelQuery

open Workspace

/-- The segment does nothing but load a column, which its header
lists. -/
def Segment.IsLoad (s : Segment) : Prop :=
  ∃ name type, s.body = .variable name .field type ∧ s.lookup = [⟨name, type⟩] ∧ s.kind = .rowwise

/-- A node made by a field list. -/
def Node.IsList : Node → Prop
  | .order .. | .project .. | .rename .. | .transform .. => True
  | _ => False

theorem Node.IsList.bound_eq {n : Node} (h : n.IsList) : n.bound = [] := by
  cases n <;> first | rfl | cases h

/-- The segments of a statement are those of its nodes, and the body of a
definition. -/
theorem Statement.forall_segments {s : Statement} {P : Segment → Prop}
    (hroot : ∀ root ∈ s.root?, ∀ n ∈ root.nodes, ∀ segment ∈ n.segments, P segment)
    (hbody : ∀ name link body, s = .define name link body → P body) :
    ∀ segment ∈ s.segments, P segment := by
  have hinner (root : Node) (hroot : ∀ n ∈ root.nodes, ∀ segment ∈ n.segments, P segment) :
      ∀ segment ∈ ([root].flatMap Node.nodes).flatMap Node.segments, P segment := by
    rw [List.flatMap_singleton]
    intro segment hsegment
    obtain ⟨n, hn, hsegment⟩ := List.mem_flatMap.mp hsegment
    exact hroot n hn segment hsegment
  cases s with
  | expression value => exact hinner value (hroot value rfl)
  | assign name value => exact hinner value (hroot value rfl)
  | define name link body =>
      exact List.forall_mem_cons.mpr ⟨hbody name link body rfl, hinner _ (hroot _ rfl)⟩
  | typeDef user => exact fun _ hsegment => absurd hsegment List.not_mem_nil

namespace Build

variable {w w' w₁ : Workspace} {slots : List Nat}

/-- Closing a level that has a counter of its own gives back the
counters around it. -/
theorem leave_counters {scope : Scope} {mode : FoldMode} {c : Counter}
    (hmode : w.context.counters.push mode
      = { w.context.counters with entries := some c :: w.context.counters.entries })
    (h : (w.entered scope mode).Widens w₁ slots) {captured : Captured}
    (hleave : leave w₁ = .ok captured w') :
    w'.context.counters = w.context.counters ∧ w'.locals = w.locals := by
  obtain ⟨parent, rest, entry, entries, -, hentries, -, rfl⟩ := leave_eq_ok hleave
  have hcounters := counters_of_entered hmode h
  rw [hcounters] at hentries
  cases hentries
  refine ⟨?_, h.locals⟩
  rw [hcounters]

/-- Closing a level that inherits its counter leaves that counter in
force. -/
theorem leave_inherited {captured : Captured}
    (hcounters : w₁.context.counters
      = (w.context.counters.push .inherit).update fun _ => w₁.counter)
    (hleave : leave w₁ = .ok captured w') :
    w'.counter = w₁.counter ∧ w'.locals = w₁.locals := by
  obtain ⟨parent, rest, entry, entries, -, hentries, -, rfl⟩ := leave_eq_ok hleave
  refine ⟨?_, rfl⟩
  rw [Counters.update_push_inherit] at hcounters
  show Counters.current { w₁.context.counters with entries } = w₁.counter
  rw [hcounters] at hentries ⊢
  cases hentries
  exact Counters.current_update _ _

/-- An item that computes nothing is loaded. -/
theorem itemSegment_isLoad (heading : Heading) {item : FieldItem} (h : item.segment? = none) :
    (itemSegment heading item).IsLoad := by
  cases item with
  | project name => exact ⟨name, _, rfl, rfl, rfl⟩
  | rename source target => exact ⟨source, _, rfl, rfl, rfl⟩
  | extend segment => cases h

/-- A list has its keys, its computed fields and loads as segments. -/
theorem fieldNode_segments {base : Node} {heading output : Heading} {type : DataType}
    {order : List Segment} {items : List FieldItem} {accums : Nat} {s : Segment}
    (hs : s ∈ (fieldNode base heading output type order items accums).segments) :
    s ∈ order ∨ s ∈ items.filterMap FieldItem.segment? ∨ s.IsLoad := by
  unfold fieldNode at hs
  split at hs
  · exact .inl hs
  · split at hs
    · exact absurd hs List.not_mem_nil
    · exact absurd hs List.not_mem_nil
    · rcases List.mem_append.mp hs with hs | hs
      · exact .inl hs
      · obtain ⟨item, hitem, rfl⟩ := List.mem_map.mp hs
        cases hsegment : item.segment? with
        | none => exact .inr (.inr (itemSegment_isLoad heading hsegment))
        | some segment =>
            refine .inr (.inl (List.mem_filterMap.mpr ⟨item, hitem, ?_⟩))
            cases item with
            | extend s => rfl
            | project name => cases hsegment
            | rename source target => cases hsegment

/-- No key and no computed field is lost. -/
theorem mem_fieldNode_segments {base : Node} {heading output : Heading} {type : DataType}
    {order : List Segment} {items : List FieldItem} {accums : Nat} {s : Segment}
    (hs : s ∈ order ∨ s ∈ items.filterMap FieldItem.segment?) :
    s ∈ (fieldNode base heading output type order items accums).segments := by
  unfold fieldNode
  split
  · rename_i honly
    obtain rfl := List.isEmpty_iff.mp (Bool.and_eq_true_iff.mp honly).1
    exact hs.resolve_right List.not_mem_nil
  -- with a key or a computed field the list becomes a transform
  · have hselect : ∃ kind, Strategy.select items (!order.isEmpty) heading.length
        = .transform kind := by
      rcases Strategy.select_cases items (!order.isEmpty) heading.length with
        hselect | ⟨hordered, hcomputed, -⟩
      · exact hselect
      · rw [Bool.not_eq_false', List.isEmpty_iff] at hordered
        rw [hordered, hcomputed] at hs
        rcases hs with hs | hs
        · exact absurd hs List.not_mem_nil
        · exact absurd hs List.not_mem_nil
    obtain ⟨kind, hkind⟩ := hselect
    rw [hkind]
    refine List.mem_append.mpr (hs.imp_right fun hs => ?_)
    obtain ⟨item, hitem, hsegment⟩ := List.mem_filterMap.mp hs
    refine List.mem_map.mpr ⟨item, hitem, ?_⟩
    cases item with
    | extend segment => exact Option.some.inj hsegment
    | project name => cases hsegment
    | rename source target => cases hsegment

/-- However a list is turned into a node, its only operand is the base. -/
theorem fieldNode_isList (base : Node) (heading output : Heading) (type : DataType)
    (order : List Segment) (items : List FieldItem) (accums : Nat) :
    (fieldNode base heading output type order items accums).IsList ∧
      (fieldNode base heading output type order items accums).operands = [base] := by
  unfold fieldNode
  split
  · exact ⟨trivial, rfl⟩
  · split
    · exact ⟨trivial, rfl⟩
    · exact ⟨trivial, rfl⟩
    · exact ⟨trivial, rfl⟩

/-- The node of a list over its base, and the segments it holds: all
keys and computed fields, and perhaps some that load a column. -/
structure ListOver (base : Node) (order computed : List Segment) (n : Node) : Prop where
  isList : n.IsList
  operands : n.operands = [base]
  holds : order ++ computed ⊆ n.segments
  segments : ∀ s ∈ n.segments, s ∈ order ∨ s ∈ computed ∨ s.IsLoad

/-- A list that succeeds has closed its level, or emptied it for the next
one. -/
theorem finishFields_leaves {base n : Node} {order : List Segment}
    {entries : List (FieldSpec Segment)} {keepOpen : Bool} {t : DataType} {f : FieldFrame}
    (h : Widens { w.opened t .enabled with frames := f :: w.frames } w₁ slots)
    (hn : finishFields base order entries keepOpen w₁ = .ok n w') :
    (∃ captured w₂, leave { w₁ with frames := w₁.frames.tail } = .ok captured w₂ ∧
      Leaves keepOpen w₂ w') ∧ ListOver base order (FieldSpec.computed entries) n := by
  obtain ⟨g, rest, items, output, c, -, hitems, hheading, hclose, rfl⟩ := finishFields_steps hn
  obtain ⟨-, hperm⟩ := fieldItems_eq_ok hitems (outputHeading_eq_ok hheading List.nodup_nil)
  have hwidens := Widens.dropFrame (w := w.opened t .enabled) h
  obtain ⟨-, captured, w₂, hleave, -, hleaves⟩ := closeFields_eq_ok hwidens hclose
  refine ⟨⟨captured, w₂, hleave, hleaves⟩, (fieldNode_isList ..).1, (fieldNode_isList ..).2,
    fun s hs => ?_, fun s hs => ?_⟩
  · refine mem_fieldNode_segments ((List.mem_append.mp hs).imp_right fun hs => ?_)
    exact hperm.mem_iff.mpr hs
  · rcases fieldNode_segments hs with horder | hcomputed | hload
    · exact .inl horder
    · exact .inr (.inl (hperm.mem_iff.mp hcomputed))
    · exact .inr (.inr hload)

/-- Keys load columns. -/
theorem orderKeys_load {keys : List OrderKey} {segments : List Segment}
    (h : orderKeys keys w = .ok segments w') : ∀ s ∈ segments, s.IsLoad := by
  induction keys generalizing w segments with
  | nil =>
      cases h
      exact fun _ hs => absurd hs List.not_mem_nil
  | cons key rest ih =>
      obtain ⟨segment, others, w₁, hkey, hrest, rfl⟩ := orderKeys_steps h
      refine List.forall_mem_cons.mpr ⟨?_, ih hrest⟩
      obtain ⟨found, w₃, -, hsegment⟩ := bind_eq_ok.mp hkey
      cases found with
      | none => exact absurd hsegment fail_ne_ok
      | some symbol =>
          dsimp only at hsegment
          split at hsegment
          · cases hsegment
            exact ⟨_, _, rfl, rfl, rfl⟩
          · exact absurd hsegment fail_ne_ok

/-- Opened or taken over, the level of a list differs at most in the
type it is for. -/
theorem list_level {isOpen : Bool} {node : Node} (allBut : Bool) (hleft : Leaves isOpen w w₁)
    (hheading : node.dataType.heading?.isNone = false) :
    ∃ t : DataType, ∀ step : Build Node,
      (if isOpen then chainFields node allBut >>= fun _ => step
        else enterFields node allBut >>= fun _ => step) w₁
        = step { w.opened t .enabled with
            frames := ⟨node.dataType, allBut⟩ :: w.frames } := by
  cases isOpen with
  | true =>
      obtain ⟨t, rfl⟩ := hleft
      refine ⟨t, fun step => ?_⟩
      rw [if_pos rfl, chainFields, hheading]
      rfl
  | false =>
      cases hleft
      refine ⟨node.dataType, fun step => ?_⟩
      rw [if_neg Bool.false_ne_true, enterFields, hheading]
      rfl

/-- The steps of a list over a base, in the level that it opens or takes
over. -/
theorem list_run {isOpen : Bool} {node n : Node} {allBut keepOpen : Bool} {keys : List OrderKey}
    {entries : Build (List (FieldSpec Segment))} (hleft : Leaves isOpen w w₁)
    (h : (let rest (_ : Unit) := orderKeys keys >>= fun order => entries >>= fun fields =>
        finishFields node order fields keepOpen
      if isOpen then chainFields node allBut >>= rest else enterFields node allBut >>= rest) w₁
        = .ok n w') :
    ∃ (t : DataType) (order : List Segment) (fields : List (FieldSpec Segment))
        (w₂ w₃ : Workspace), node.dataType.heading?.isNone = false ∧
      orderKeys keys { w.opened t .enabled with frames := ⟨node.dataType, allBut⟩ :: w.frames }
        = .ok order w₂ ∧
      entries w₂ = .ok fields w₃ ∧ finishFields node order fields keepOpen w₃ = .ok n w' := by
  have hheading : node.dataType.heading?.isNone = false := by
    dsimp only at h
    split at h
    · obtain ⟨u, w₂, hopen, -⟩ := bind_eq_ok.mp h
      exact (chainFields_eq_ok hopen).1
    · obtain ⟨u, w₂, hopen, -⟩ := bind_eq_ok.mp h
      exact (enterFields_eq_ok hopen).1
  obtain ⟨t, hlevel⟩ := list_level allBut hleft hheading
  dsimp only at h
  rw [hlevel] at h
  obtain ⟨order, w₂, horder, h⟩ := bind_eq_ok.mp h
  obtain ⟨fields, w₃, hfields, hfinish⟩ := bind_eq_ok.mp h
  exact ⟨t, order, fields, w₂, w₃, hheading, horder, hfields, hfinish⟩

end Build

end RelQuery
