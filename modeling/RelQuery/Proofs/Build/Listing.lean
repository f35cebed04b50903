/-
Listing a column and computing it.

An entry that is a bare name is not built: where the list becomes a
transform, a segment that loads the column is made for it afterwards. A
field that computes the column from its name opens a level, finds the
name there and takes what the level has noted. Both come to the same
segment, but for the source of the column (`Segment.ofColumn`): what is
made afterwards always loads it from the row, while the symbol of a
component loads it from the value of the user type.

The rest of the list is built alike. Computing a column leaves its read
with the trackers around the list, which nothing in it looks at
(`run_retracked`), and begins the count of a field anew, which the next
computed field and the end of the list do not notice either
(`fieldEntries_reset`, `closeFields_reset`). Between them the two lists
have the same output, and since a column from its name is an open
segment, it makes no transform of another kind.
-/
import RelQuery.Proofs.Build.Declared
import RelQuery.Proofs.Build.Tracking

namespace RelQuery

open Workspace

/-- Where the columns of a base are loaded from by their names. -/
def DataType.columnSource : DataType → VariableSource
  | .user _ => .component
  | _ => .field

/-- Only a value of a user type has components instead of columns. -/
theorem DataType.columnSource_eq_field {base : DataType} :
    base.columnSource = .field ↔ ∀ u, base ≠ .user u := by
  cases base with
  | user u => exact ⟨fun h => (nomatch h), fun h => absurd rfl (h u)⟩
  | _ => exact ⟨fun _ _ h => (nomatch h), fun _ => rfl⟩

namespace Segment

/-- The segment that computes a column of a base from its name. -/
def ofColumn (base : DataType) (name : String) (type : DataType) : Segment :=
  { load name type with body := .variable name base.columnSource type }

variable {base type : DataType} {name : String}

/-- It is the one that is made for a listed column unless the base is a
value of a user type. -/
theorem ofColumn_eq_load : ofColumn base name type = load name type ↔ ∀ u, base ≠ .user u := by
  rw [← DataType.columnSource_eq_field]
  constructor
  · intro h
    have hbody : Node.variable name base.columnSource type = .variable name .field type :=
      congrArg Segment.body h
    injection hbody
  · intro h
    rw [ofColumn, h]
    rfl

end Segment

-- ==================================================== names of columns

namespace Scope

variable {heading : Heading} {column : Column} {name : String}

/-- A scope for a heading has one symbol for each column. -/
theorem get?_seeded_eq_some (kind : ScopeKind) (level : Nat) (symbolKind : SymbolKind)
    (h : heading.get? name = some column) :
    (seeded kind level heading symbolKind).get? name
      = some { name, kind := symbolKind, type := column.type, level } := by
  obtain rfl := Heading.get?_name h
  rw [get?_seeded_eq, h]
  rfl

/-- In the scope of a base the name of a column leads to it. -/
theorem get?_ofType_eq_some {base : DataType} (level : Nat) (hbase : base.heading? = some heading)
    (h : heading.get? name = some column) :
    ∃ symbol, (ofType base level).get? name = some symbol ∧ symbol.name = name ∧
      symbol.kind.isLookup = true ∧ symbol.type = column.type ∧ symbol.level = level ∧
      Build.useSymbol symbol = pure (.variable name base.columnSource column.type) := by
  cases base with
  | tuple own =>
      cases hbase
      exact ⟨_, get?_seeded_eq_some _ _ _ h, rfl, rfl, rfl, rfl, rfl⟩
  | relation own =>
      cases hbase
      exact ⟨_, get?_seeded_eq_some _ _ _ h, rfl, rfl, rfl, rfl, rfl⟩
  | user u =>
      cases hbase
      exact ⟨_, get?_seeded_eq_some _ _ _ h, rfl, rfl, rfl, rfl, rfl⟩
  | _ => cases hbase

/-- The scope of a base records the columns that it declares. -/
theorem record_ofType {base : DataType} {level : Nat} (hbase : base.heading? = some heading)
    (column : Column) : (ofType base level).record column level
      = { ofType base level with lookup := [column] } := by
  have hopen (scope : Scope) (hlevel : scope.level = level) (hheading : scope.heading.isSome = true)
      (hlookup : scope.lookup = []) :
      scope.record column level = { scope with lookup := [column] } := by
    unfold record
    rw [hlevel, hheading, hlookup, if_pos (by simp)]
    rfl
  cases base with
  | tuple own => exact hopen _ rfl rfl rfl
  | relation own => exact hopen _ rfl rfl rfl
  | user u => exact hopen _ rfl rfl rfl
  | _ => cases hbase

end Scope

namespace Scopes

variable {s : Scopes}

/-- Scopes do not record a column that is declared further in. -/
theorem IsSound.record_beyond (h : s.IsSound) (column : Column) :
    s.record column (s.level + 1)
      = { s with trackers := s.trackers.map (track ⟨column, s.level + 1⟩) } := by
  have hkeeps : ∀ scope ∈ s.all, scope.record column (s.level + 1) = scope := by
    intro scope hscope
    have hlevel := h.levels scope hscope
    unfold Scope.record
    rw [if_neg]
    rw [Bool.and_eq_true, decide_eq_true_eq]
    rintro ⟨hle, -⟩
    omega
  obtain ⟨hcurrent, houter⟩ := List.forall_mem_cons.mp hkeeps
  unfold record
  rw [hcurrent, List.map_congr_left houter, List.map_id']

end Scopes

namespace Build

variable {catalog : Catalog} {w w' : Workspace} {f : FieldFrame} {heading : Heading}
  {column : Column} {name : String}

-- ================================================== the computed column

/-- The trackers have seen a column that is declared one level further
in. -/
def tracked (column : Column) (w : Workspace) : Workspace :=
  retracked (w.context.scopes.trackers.map
    (Scopes.track ⟨column, w.context.scopes.level + 1⟩)) w

/-- In the level of a base, the name of a column is a use of it. The
level has then noted this one column. -/
theorem expression_column {base : DataType} (hw : w.context.scopes.IsSound)
    (hbase : base.heading? = some heading) (hget : heading.get? name = some column)
    (mode : FoldMode) (place : Nat) :
    expression catalog false (.name place name) (w.opened base mode)
      = .ok (.variable name base.columnSource column.type)
        ((tracked ⟨name, column.type⟩ w).entered
          { Scope.ofType base (w.context.scopes.level + 1) with lookup := [⟨name, column.type⟩] }
          mode) := by
  -- the scope of the base offers the column under its name
  obtain ⟨symbol, hsymbol, hname, hlookup, htype, hlevel, huse⟩ :=
    Scope.get?_ofType_eq_some (w.context.scopes.level + 1) hbase hget
  have hfind : (w.opened base mode).context.scopes.find? name = some symbol := by
    show (w.context.scopes.enter _).find? name = _
    rw [Scopes.find?_enter, hsymbol]
    rfl
  -- resolving it is one read, at the level of the base
  have hread : (w.opened base mode).context.scopes.readOf name
      = [⟨⟨name, column.type⟩, w.context.scopes.level + 1⟩] := by
    rw [Scopes.readOf, hfind]
    dsimp only
    rw [if_pos hlookup, hname, htype, hlevel]
  have hrun : resolve name (w.opened base mode)
      = .ok (some symbol) ((tracked ⟨name, column.type⟩ w).entered
          { Scope.ofType base (w.context.scopes.level + 1) with lookup := [⟨name, column.type⟩] }
          mode) := by
    show EStateM.Result.ok ((w.opened base mode).context.scopes.resolve name).1
      (Workspace.mk ⟨((w.opened base mode).context.scopes.resolve name).2, _⟩ _ _ _) = _
    rw [Scopes.resolve_eq, hfind, hread]
    -- the read is tracked outside and listed in the scope of the base alone
    show EStateM.Result.ok _ (Workspace.mk ⟨(w.context.scopes.record _ _).enter
      ((Scope.ofType base _).record _ _), _⟩ _ _ _) = _
    rw [hw.record_beyond, Scope.record_ofType hbase]
    rfl
  rw [expression, located_eq_ok]
  refine bind_eq_ok.mpr ⟨some symbol, _, hrun, ?_⟩
  show useSymbol symbol _ = _
  rw [huse]
  rfl

/-- Computing a column from its name gives the segment that reads it. It
begins the count of a field anew and leaves the read with the
trackers. -/
theorem computedField_column (hframe : w.frames.head? = some f) (hw : w.context.scopes.IsSound)
    (hbase : f.base.heading? = some heading) (hget : heading.get? name = some column)
    (mark place : Nat) :
    computedField catalog name mark (.name place name) w
      = .ok (.ofColumn f.base name column.type)
        (tracked ⟨name, column.type⟩ (w.onCounter .resetField)) := by
  refine bind_eq_ok.mpr ⟨(), _, beginField_apply hframe, ?_⟩
  refine bind_eq_ok.mpr ⟨_, _, expression_column (w := w.onCounter .resetField) hw hbase hget
    .inherit place, located_eq_ok.mpr ?_⟩
  show EStateM.Result.ok (Segment.make name _ [⟨name, column.type⟩]
    (w.onCounter .resetField).counter.segments (w.onCounter .resetField).counter.hasWindow) _ = _
  rw [counter_onCounter]
  rfl

-- ================================================= the rest of the list

/-- Entries that are written after others are built after them. -/
theorem fieldEntries_append (written more : List FieldEntry) :
    fieldEntries catalog (written ++ more)
      = fieldEntries catalog written >>= fun fields =>
          fieldEntries catalog more >>= fun others => pure (fields ++ others) := by
  induction written with
  | nil => simp only [List.nil_append, fieldEntries, pure_bind, bind_pure]
  | cons entry rest ih =>
      simp only [List.cons_append, fieldEntries_cons, ih, bind_assoc, pure_bind]

/-- One entry is built for each that is written. -/
theorem length_fieldEntries {written : List FieldEntry} {fields : List (FieldSpec Segment)}
    (h : fieldEntries catalog written w = .ok fields w') : fields.length = written.length := by
  induction written generalizing w fields w' with
  | nil =>
      cases h
      rfl
  | cons entry rest ih =>
      rw [fieldEntries_cons] at h
      obtain ⟨field, w₁, -, h⟩ := bind_eq_ok.mp h
      obtain ⟨others, w₂, hothers, h⟩ := bind_eq_ok.mp h
      cases h
      exact congrArg (· + 1) (ih hothers)

/-- A field that resets the count twice has reset it. -/
theorem resetField_onCounter (w : Workspace) :
    (w.onCounter .resetField).onCounter .resetField = w.onCounter .resetField := by
  show Workspace.mk ⟨_, (w.context.counters.update _).update _⟩ _ _ _ = _
  rw [Counters.update_update]
  rfl

/-- A computed field begins the count anew in any case. -/
theorem fieldEntry_reset (hframe : w.frames.head? = some f) (hf : f.allBut = false) (name : String)
    (mark : Nat) (value : Expr) :
    fieldEntry catalog (.computed name mark value) (w.onCounter .resetField)
      = fieldEntry catalog (.computed name mark value) w := by
  have hbegin : beginField (w.onCounter .resetField) = beginField w := by
    rw [beginField_apply hframe, beginField_apply (w := w.onCounter .resetField) hframe,
      resetField_onCounter]
  rw [fieldEntry_computed hframe hf, fieldEntry_computed (w := w.onCounter .resetField) hframe hf,
    computedField, bind_assoc]
  show EStateM.bind beginField _ _ = EStateM.bind beginField _ _
  unfold EStateM.bind
  rw [hbegin]

/-- That the count of a field has begun anew is not noticed by the
fields that follow. -/
theorem fieldEntries_reset (hf : f.allBut = false) {written : List FieldEntry}
    {fields : List (FieldSpec Segment)} (hframe : w.frames.head? = some f)
    (h : fieldEntries catalog written w = .ok fields w') :
    ∃ v', fieldEntries catalog written (w.onCounter .resetField) = .ok fields v' ∧
      (v' = w' ∨ v' = w'.onCounter .resetField) := by
  induction written generalizing w fields w' with
  | nil =>
      cases h
      exact ⟨_, rfl, .inr rfl⟩
  | cons entry rest ih =>
      rw [fieldEntries_cons] at h ⊢
      obtain ⟨field, w₁, hfield, hrest⟩ := bind_eq_ok.mp h
      cases entry with
      | plain name mark =>
          cases hfield
          obtain ⟨others, w₂, hothers, h⟩ := bind_eq_ok.mp hrest
          cases h
          obtain ⟨v', hrun, hends⟩ := ih hframe hothers
          exact ⟨v', bind_eq_ok.mpr ⟨_, _, rfl, bind_eq_ok.mpr ⟨others, v', hrun, rfl⟩⟩, hends⟩
      | computed name mark value =>
          rw [← fieldEntry_reset hframe hf] at hfield
          exact ⟨w', bind_eq_ok.mpr ⟨field, w₁, hfield, hrest⟩, .inl rfl⟩

/-- Nor is it noticed by the end of the list, which asks for the total
only. -/
theorem closeFields_reset {keepOpen : Bool} {type : DataType} {c : Counter}
    (h : closeFields keepOpen type w = .ok c w') :
    ∃ c' v', closeFields keepOpen type (w.onCounter .resetField) = .ok c' v' ∧
      c'.total = c.total := by
  -- closing pops a scope and an entry of the counters, so both stacks are laid
  -- open
  obtain ⟨⟨⟨current, outer, trackers⟩, counters⟩, locals, pending, frames⟩ := w
  cases outer with
  | nil => cases keepOpen <;> cases h
  | cons parent rest =>
      -- a list that is kept open pops nothing
      cases keepOpen with
      | true =>
          cases h
          refine ⟨_, _, rfl, ?_⟩
          show (counters.update .resetField).current.total = counters.current.total
          rw [Counters.current_update]
          rfl
      | false =>
          obtain ⟨root, entries⟩ := counters
          -- the reset changes the entry that is on top, but not its total
          have hhead := Counters.head?_update ⟨root, entries⟩ .resetField
          unfold Workspace.onCounter
          generalize Counters.update ⟨root, entries⟩ .resetField = reset at hhead ⊢
          obtain ⟨root', entries'⟩ := reset
          cases entries with
          | nil => cases h
          | cons entry entries =>
              cases h
              cases entries' with
              | nil => cases hhead
              | cons entry' entries' =>
                  obtain rfl := Option.some.inj hhead
                  refine ⟨_, _, rfl, ?_⟩
                  cases entry with
                  | none => rfl
                  | some k => rfl

-- ============================================================= the node

variable {left right : List FieldItem} {segment : Segment}

/-- In a transform a kept column is a segment that loads it, and an open
segment of the list's own can stand there as well. -/
theorem fieldNode_extend {base node : Node} {heading output : Heading} {listed type : DataType}
    {order keys fields : List Segment} {total accums : Nat} {kind : TransformKind}
    (hkind : segment.kind = .rowwise)
    (hrenamings : (left ++ .project name :: right).filterMap FieldItem.renaming? = [])
    (h : fieldNode base heading output listed order (left ++ .project name :: right) total
      = .transform node kind keys fields accums type) :
    node = base ∧ fields = left.map (itemSegment heading)
        ++ itemSegment heading (.project name) :: right.map (itemSegment heading) ∧
      fieldNode base heading output listed order (left ++ .extend segment :: right) total
        = .transform node kind keys
          (left.map (itemSegment heading) ++ segment :: right.map (itemSegment heading)) accums
          type := by
  have hitems (item : FieldItem) : ((left ++ item :: right).isEmpty && !order.isEmpty) = false := by
    cases left with
    | nil => rfl
    | cons first rest => rfl
  unfold fieldNode at h ⊢
  rw [hitems, if_neg Bool.false_ne_true] at h ⊢
  cases hselect : Strategy.select (left ++ .project name :: right) (!order.isEmpty)
      heading.length with
  | projection =>
      rw [hselect] at h
      cases h
  | rename =>
      rw [hselect] at h
      cases h
  | transform kind' =>
      rw [hselect] at h
      rw [Strategy.select_extend hkind hrenamings hselect]
      cases h
      rw [List.map_append, List.map_append]
      exact ⟨rfl, rfl, rfl⟩

/-- A list that becomes a transform has a column for each listed name,
and ends alike with the column computed from its name. -/
theorem finishFields_column {base node : Node} {order keys fields : List Segment}
    {rest : List FieldFrame} {before after : List (FieldSpec Segment)} {keepOpen : Bool}
    {kind : TransformKind} {accums : Nat} {type : DataType} (hframes : w.frames = f :: rest)
    (hf : f.allBut = false) (hbase : f.base.heading? = some heading)
    (hrenames : FieldSpec.renames (before ++ .project name :: after) = [])
    (h : finishFields base order (before ++ .project name :: after) keepOpen w
      = .ok (.transform node kind keys fields accums type) w') :
    ∃ column left right, node = base ∧ heading.get? name = some column ∧
      left.length = before.length ∧ fields = left ++ .load name column.type :: right ∧
      ∀ v, v = w ∨ v = w.onCounter .resetField → ∃ v', finishFields base order
          (before ++ .extend name (.ofColumn f.base name column.type) :: after) keepOpen v
        = .ok (.transform node kind keys (left ++ .ofColumn f.base name column.type :: right) accums
          type) v' := by
  obtain ⟨output, c, houtput, hclose, hnode⟩ := (finishFields_plain hframes hf).mp h
  rw [← renamings_ofSpec] at hrenames
  simp only [hbase, Option.getD_some, List.map_append, List.map_cons, FieldItem.ofSpec]
    at houtput hnode hrenames
  -- the listed name is one of the columns of the base, for the output has its
  -- type
  obtain ⟨t, ht⟩ := outputHeading_items houtput (.project name)
    (List.mem_append_right _ List.mem_cons_self)
  obtain ⟨column, hget⟩ : ∃ column, heading.get? name = some column := by
    cases hget : heading.get? name with
    | some column => exact ⟨column, rfl⟩
    | none =>
        rw [itemType, hget] at ht
        cases ht
  have hload : itemSegment heading (.project name) = .load name column.type := by
    rw [itemSegment, itemSegment.typeIn, hget]
    rfl
  -- loading a column and reading it from the row are segments of the same kind
  have hrowwise : (Segment.ofColumn f.base name column.type).kind = .rowwise := rfl
  obtain ⟨hsource, hfields, hextend⟩ := fieldNode_extend hrowwise hrenames hnode.symm
  rw [hload] at hfields
  refine ⟨column, _, _, hsource, hget, ?_, hfields, fun v hv => ?_⟩
  · rw [List.length_map, List.length_map]
  -- both lists offer the same output, since the column has the type that was
  -- listed
  have hoffered : outputHeading heading []
      (before.map .ofSpec ++ .extend (.ofColumn f.base name column.type) :: after.map .ofSpec)
      = .ok output := by
    rw [← houtput]
    refine outputHeading_congr ?_ []
    rw [List.map_append, List.map_append, List.map_cons, List.map_cons, itemType, itemType, hget]
    rfl
  -- a counter that was reset ends alike: only the total is kept of it
  have hcloses : v.frames = f :: rest ∧ ∃ c' v', closeFields keepOpen
      (if f.base.isRelation then .relation output else .tuple output) { v with frames := rest }
        = .ok c' v' ∧ c'.total = c.total := by
    rcases hv with rfl | rfl
    · exact ⟨hframes, c, w', hclose, rfl⟩
    · exact ⟨hframes, closeFields_reset hclose⟩
  obtain ⟨hframes', c', v', hclose', htotal⟩ := hcloses
  refine ⟨v', (finishFields_plain hframes' hf).mpr ⟨output, c', ?_, hclose', ?_⟩⟩
  · simp only [hbase, Option.getD_some, List.map_append, List.map_cons, FieldItem.ofSpec]
    exact hoffered
  · simp only [hbase, Option.getD_some, List.map_append, List.map_cons, FieldItem.ofSpec, htotal]
    exact hextend.symm

-- ============================================================= the list

/-- What remains of a list does not look at the trackers around it. -/
theorem remaining_tracked {base n : Node} {order : List Segment} {keepOpen : Bool}
    {written : List FieldEntry} {entries : List (FieldSpec Segment) → List (FieldSpec Segment)}
    (column : Column)
    (h : (fieldEntries catalog written >>= fun fields =>
      finishFields base order (entries fields) keepOpen) w = .ok n w') :
    ∃ v', (fieldEntries catalog written >>= fun fields =>
      finishFields base order (entries fields) keepOpen) (tracked column w) = .ok n v' := by
  refine run_retracked (fun m => (hideTrackers m).passes_of_at fun _ hs => ?_) h _
  refine ((hideTrackers m).fieldEntries_passes catalog written).bind fun fields => ?_
  have hfinish := (hideTrackers m).finishFields_passes hs base order (entries fields) keepOpen
  cases keepOpen with
  | true => exact hfinish
  | false => exact hfinish

/-- The entries of an open list that becomes a transform, with one of
them listed or computed. -/
theorem entries_column {base node : Node} {order keys fields : List Segment}
    {rest : List FieldFrame} {before after : List FieldEntry} {place : Nat} {keepOpen : Bool}
    {kind : TransformKind} {accums : Nat} {type : DataType} (hw : w.context.scopes.IsSound)
    (hframes : w.frames = f :: rest) (hf : f.allBut = false)
    (hbase : f.base.heading? = some heading)
    (h : (fieldEntries catalog (before ++ .plain name place :: after) >>= fun entries =>
        finishFields base order entries keepOpen) w
      = .ok (.transform node kind keys fields accums type) w') (mark place' : Nat) :
    ∃ column left right w'', node = base ∧ heading.get? name = some column ∧
      left.length = before.length ∧ fields = left ++ .load name column.type :: right ∧
      (fieldEntries catalog (before ++ .computed name mark (.name place' name) :: after)
          >>= fun entries => finishFields base order entries keepOpen) w
        = .ok (.transform node kind keys (left ++ .ofColumn f.base name column.type :: right) accums
          type) w'' := by
  obtain ⟨listed, w₃, hlisted, hfinish⟩ := bind_eq_ok.mp h
  have hrenames := fieldEntries_no_renames hf (congrArg List.head? hframes) hlisted
  rw [fieldEntries_append] at hlisted
  obtain ⟨xs, w₁, hxs, hlisted⟩ := bind_eq_ok.mp hlisted
  obtain ⟨others, w₂, hothers, hlisted⟩ := bind_eq_ok.mp hlisted
  cases hlisted
  rw [fieldEntries_cons] at hothers
  obtain ⟨field, w₂, hfield, hothers⟩ := bind_eq_ok.mp hothers
  cases hfield
  obtain ⟨ys, w₂, hys, hothers⟩ := bind_eq_ok.mp hothers
  cases hothers
  -- between the entries the list is open, and the scopes are sound
  obtain ⟨_, hbefore, -⟩ := fieldEntries_lists catalog before w xs w₁ hxs
  obtain ⟨_, hafter, -⟩ := fieldEntries_lists catalog after w₁ ys w₃ hys
  have hframes₁ : w₁.frames = f :: rest := hbefore.frames.trans hframes
  have hframe₁ : w₁.frames.head? = some f := congrArg List.head? hframes₁
  obtain ⟨column, left, right, hsource, hget, hlength, hfields, hends⟩ :=
    finishFields_column (hafter.frames.trans hframes₁) hf hbase hrenames hfinish
  have hcomputed : fieldEntry catalog (.computed name mark (.name place' name)) w₁
      = .ok (.extend name (.ofColumn f.base name column.type))
        (tracked ⟨name, column.type⟩ (w₁.onCounter .resetField)) := by
    rw [fieldEntry_computed hframe₁ hf]
    exact bind_eq_ok.mpr ⟨_, _, computedField_column hframe₁ (hw.widens hbefore.scopes) hbase hget
      mark place', rfl⟩
  obtain ⟨v, hv, hreset⟩ := fieldEntries_reset hf hframe₁ hys
  obtain ⟨v', hv'⟩ := hends v hreset
  have hremaining : (fieldEntries catalog after >>= fun ys => finishFields base order
      (xs ++ .extend name (.ofColumn f.base name column.type) :: ys) keepOpen)
        (w₁.onCounter .resetField) = .ok _ v' := bind_eq_ok.mpr ⟨ys, v, hv, hv'⟩
  obtain ⟨w'', hrun⟩ := remaining_tracked ⟨name, column.type⟩ hremaining
  obtain ⟨zs, w₂, hzs, hrun⟩ := bind_eq_ok.mp hrun
  refine ⟨column, left, right, w'', hsource, hget, hlength.trans (length_fieldEntries hxs), hfields,
    ?_⟩
  refine bind_eq_ok.mpr ⟨xs ++ .extend name (.ofColumn f.base name column.type) :: zs, w₂, ?_, hrun⟩
  rw [fieldEntries_append, fieldEntries_cons]
  refine bind_eq_ok.mpr ⟨xs, w₁, hxs, bind_eq_ok.mpr ⟨_, w₂, ?_, rfl⟩⟩
  exact bind_eq_ok.mpr ⟨_, _, hcomputed, bind_eq_ok.mpr ⟨zs, w₂, hzs, rfl⟩⟩

/-- In a list that becomes a transform, a listed column can be computed
from its name instead: the transform is the same in all but the segment
of the column, and there only in where the column is loaded from. It is
the same altogether unless the base is a value of a user type. -/
theorem listing_is_computing_unless_component {e : Expr} {before after : List FieldEntry}
    {order : List OrderKey} {node : Node} {keys fields : List Segment} {keepOpen : Bool}
    {kind : TransformKind} {accums place mark : Nat} {type : DataType}
    (hw : w.context.scopes.IsSound)
    (h : expression catalog keepOpen
      (.fields mark e ⟨false, order, before ++ .plain name place :: after⟩) w
        = .ok (.transform node kind keys fields accums type) w') (mark' place' : Nat) :
    ∃ heading column left right w'', node.dataType.heading? = some heading ∧
      heading.get? name = some column ∧ left.length = before.length ∧
      fields = left ++ .load name column.type :: right ∧
      expression catalog keepOpen (.fields mark e
        ⟨false, order, before ++ .computed name mark' (.name place' name) :: after⟩) w
          = .ok (.transform node kind keys
            (left ++ .ofColumn node.dataType name column.type :: right) accums type) w'' ∧
      (left ++ .ofColumn node.dataType name column.type :: right = fields
        ↔ ∀ u, node.dataType ≠ .user u) := by
  rw [expression_fields, located_eq_ok] at h
  obtain ⟨base, w₁, hbase, h⟩ := bind_eq_ok.mp h
  obtain ⟨_, w₀, hgrows, -, -, hleft⟩ := expression_builds catalog true e w base w₁ hbase
  obtain ⟨-, -, -, -, -, hheading, -⟩ := list_run hleft h
  obtain ⟨t, hlevel⟩ := list_level false hleft hheading
  -- the base has columns, or the list would not have been built
  obtain ⟨heading, hheading⟩ : ∃ heading, base.dataType.heading? = some heading :=
    Option.isSome_iff_exists.mp (Option.isNone_eq_false_iff.mp hheading)
  -- keys and entries of any list run from the same workspace
  have hlist (entries : List FieldEntry) :
      list catalog e.isFields keepOpen base ⟨false, order, entries⟩ w₁
        = (orderKeys order >>= fun keys => fieldEntries catalog entries >>= fun fields =>
          finishFields base keys fields keepOpen)
          { w₀.opened t .enabled with frames := ⟨base.dataType, false⟩ :: w₀.frames } := hlevel _
  rw [hlist] at h
  obtain ⟨segments, w₂, horder, h⟩ := bind_eq_ok.mp h
  have hkeys := (orderKeys_eq_ok horder).1
  have hopened : w₂.context.scopes.IsSound :=
    ((hw.widens hgrows.scopes).enter (Scopes.admits_ofType _ _)).widens hkeys.scopes
  -- so only the entries differ, and their runs differ in that one column
  obtain ⟨column, left, right, w'', rfl, hget, hlength, hfields, hrun⟩ :=
    entries_column (f := ⟨base.dataType, false⟩) hopened hkeys.frames rfl hheading h mark' place'
  refine ⟨heading, column, left, right, w'', hheading, hget, hlength, hfields, ?_, ?_⟩
  · rw [expression_fields, located_eq_ok]
    refine bind_eq_ok.mpr ⟨node, w₁, hbase, ?_⟩
    rw [hlist]
    exact bind_eq_ok.mpr ⟨segments, w₂, horder, hrun⟩
  -- a column of a user type is loaded as a component, any other as a field
  · rw [hfields, List.append_cancel_left_eq, List.cons.injEq, Segment.ofColumn_eq_load]
    exact and_iff_left rfl

/-- A catalog with a type that has one component. -/
def flagType : Catalog :=
  { entries := [{ name := "t", kind := .userType, type := .user ⟨"t", [⟨"a", .bool⟩], none⟩ }] }

/-- A list over a value of that type, with an entry for the component. -/
def flagFields (entry : FieldEntry) : Expr :=
  .fields 0 (.call 0 "t" [.bool 0 true]) ⟨false, [], [] ++ entry :: [.computed "b" 0 (.text 0 "x")]⟩

/-- Listed and computed, a component gives different transforms. -/
theorem listing_is_computing_unless_component_flag :
    Scopes.fresh.IsSound ∧ ∃ node kind keys fields fields' accums type w' w'',
      expression flagType false (flagFields (.plain "a" 0)) { context := .fresh }
        = .ok (.transform node kind keys fields accums type) w' ∧
      expression flagType false (flagFields (.computed "a" 0 (.name 0 "a"))) { context := .fresh }
        = .ok (.transform node kind keys fields' accums type) w'' ∧
      fields' ≠ fields := by
  have hbuilt : endsWith (fun n _ => n.shape == "transform" &&
      n.operands.all (·.dataType.columnSource == .component))
      (expression flagType false (flagFields (.plain "a" 0)) { context := .fresh }) = true := by
    decide +kernel
  obtain ⟨n, w', hn, hcheck⟩ := endsWith_eq_true hbuilt
  obtain ⟨hshape, hsource⟩ := Bool.and_eq_true_iff.mp hcheck
  cases n with
  | transform node kind keys fields accums type =>
      obtain ⟨heading, column, left, right, w'', -, -, -, -, hcomputed, hsame⟩ :=
        listing_is_computing_unless_component Scopes.IsSound.fresh hn 0 0
      refine ⟨.fresh, node, kind, keys, fields, _, accums, type, w', w'', hn, hcomputed, ?_⟩
      rw [Ne, hsame, ← DataType.columnSource_eq_field]
      intro hfield
      have hcomponent := List.all_eq_true.mp hsource node List.mem_cons_self
      rw [hfield] at hcomponent
      cases hcomponent
  | _ => simp [Node.shape] at hshape

end Build

end RelQuery
