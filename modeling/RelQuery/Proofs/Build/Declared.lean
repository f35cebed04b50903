/-
The heading that a field list declares.

The heading of a list is made from its items, before it is known what
the list becomes. It is what the list puts out in each case. A computed
list runs one segment for each item, and the segment has the name and
the type of the column. A projection has only columns of the base. A
rename is chosen by counting: a list that puts out as many columns as
the base has and computes none of them can have dropped none, since of a
column of the base at most one item comes (`renamed_output`). Only a
list with all-but can hold such items, because in any other list a
value that is a bare name is computed (`fieldEntries_no_renames`).
-/
import RelQuery.Proofs.Build.Chain
import RelQuery.Proofs.Type.Equality

namespace RelQuery

open Workspace

/-- The column that a segment puts out. -/
def Segment.column (s : Segment) : Column :=
  ⟨s.name, s.body.dataType⟩

/-- The heading of a list's node comes about as its kind says. -/
def Node.Declares (base : Node) (heading : Heading) : Node → Prop
  | .transform source _ _ fields _ type =>
    source = base ∧ type.heading? = some (fields.map Segment.column)
  | .rename source pairs type =>
    source = base ∧ (pairs.map Prod.fst).Nodup ∧ (∀ pair ∈ pairs, pair.1 ∈ heading.names) ∧
      type.heading? = some (heading.map fun c => ⟨(pairs.lookup c.name).getD c.name, c.type⟩)
  | .project source output type =>
    source = base ∧ type.heading? = some output ∧ ∀ c ∈ output, c ∈ heading
  | .order source _ => source = base
  | _ => False

-- ======================================================= looked-up pairs

variable {β : Type} {keys : List String} {k : String}

/-- Keys that are found are some of the keys. -/
theorem keys_filterMap_lookup (find : String → Option β) (keys : List String) :
    ((keys.filterMap fun k => (find k).map (k, ·)).map Prod.fst).Sublist keys := by
  induction keys with
  | nil => exact .slnil
  | cons k keys ih =>
      rw [List.filterMap_cons]
      cases find k with
      | none => exact ih.cons k
      | some v => exact ih.cons_cons k

/-- A key is found with what it was looked up as. -/
theorem lookup_filterMap_lookup (find : String → Option β) (hkeys : keys.Nodup) (hk : k ∈ keys) :
    (keys.filterMap fun k => (find k).map (k, ·)).lookup k = find k := by
  induction keys with
  | nil => cases hk
  | cons key keys ih =>
      obtain ⟨hkey, hkeys⟩ := List.nodup_cons.mp hkeys
      have hmissing (h : key ∉ keys) :
          (keys.filterMap fun k => (find k).map (k, ·)).lookup key = none :=
        lookup_eq_none.mpr fun hmem => h ((keys_filterMap_lookup find keys).subset hmem)
      rw [List.filterMap_cons]
      rcases List.mem_cons.mp hk with rfl | hk
      · cases hfind : find k with
        | none => exact hmissing hkey
        | some v => exact List.lookup_cons_self
      · have hne : k ≠ key := fun he => hkey (he ▸ hk)
        cases find key with
        | none => exact ih hkeys hk
        | some v =>
            rw [Option.map_some, List.lookup_cons, beq_false_of_ne hne]
            exact ih hkeys hk

namespace Build

variable {base out output : Heading} {items : List FieldItem} {entries : List (FieldSpec Segment)}
  {catalog : Catalog} {w w' : Workspace}

-- ========================================================== columns

/-- The segment of an item has the name and the type of its column. -/
theorem itemSegment_column {item : FieldItem} {type : DataType}
    (h : itemType base item = .ok type) :
    (itemSegment base item).column = ⟨item.output, type⟩ := by
  have hcolumn (name : String) (h : itemType base (.project name) = .ok type) :
      itemSegment.typeIn base name = type := by
    rw [itemType] at h
    unfold itemSegment.typeIn
    cases hget : Heading.get? base name with
    | some column =>
        rw [hget] at h
        cases h
        rfl
    | none =>
        rw [hget] at h
        cases h
  cases item with
  | project name => exact congrArg (Column.mk name) (hcolumn name h)
  | rename source target => exact congrArg (Column.mk target) (hcolumn source h)
  | extend segment =>
      cases h
      rfl

/-- A list puts out one column for each of its items. -/
theorem outputHeading_columns (h : outputHeading base out items = .ok output) :
    output = out ++ items.map fun item => (itemSegment base item).column := by
  induction items generalizing out with
  | nil =>
      cases h
      exact (List.append_nil _).symm
  | cons item rest ih =>
      obtain ⟨type, next, htype, hpush, h⟩ := outputHeading_cons h
      obtain ⟨-, rfl⟩ := Heading.push_eq_ok.mp hpush
      rw [ih h, List.map_cons, itemSegment_column htype, List.append_assoc]
      rfl

/-- A column that is kept is one of the base. -/
theorem projected_output (h : outputHeading base [] items = .ok output)
    (hsegments : items.filterMap FieldItem.segment? = [])
    (hrenamings : items.filterMap FieldItem.renaming? = []) : ∀ c ∈ output, c ∈ base := by
  rw [List.filterMap_eq_nil_iff] at hsegments hrenamings
  rw [outputHeading_columns h, List.nil_append]
  intro c hc
  obtain ⟨item, hitem, rfl⟩ := List.mem_map.mp hc
  obtain ⟨type, htype⟩ := outputHeading_items h item hitem
  rw [itemSegment_column htype]
  cases item with
  | project name =>
      rw [itemType] at htype
      cases hget : Heading.get? base name with
      | some column =>
          rw [hget] at htype
          cases htype
          obtain ⟨own, type⟩ := column
          obtain rfl : own = name := Heading.get?_name hget
          exact List.mem_of_find?_eq_some hget
      | none =>
          rw [hget] at htype
          cases htype
  | rename source target => cases hrenamings _ hitem
  | extend segment => cases hsegments _ hitem

-- =========================================================== renames

/-- A list that computes nothing and is as long as the base has one item
for each column. -/
theorem items_eq_carried {expanded : List (ExpandedField Segment)}
    (h : FieldSpec.expand base entries = .ok expanded)
    (hitems : items = expanded.filterMap FieldItem.ofExpanded?)
    (hsegments : items.filterMap FieldItem.segment? = []) (hlength : items.length = base.length) :
    items = base.names.map (FieldSpec.carriedItem entries) := by
  rw [FieldSpec.filterMap_ofExpanded? h] at hitems
  have hadded : ((FieldSpec.extensions entries).filter fun e => !base.has e.1) = [] := by
    rw [hitems, List.filterMap_append, List.append_eq_nil_iff] at hsegments
    rw [List.filterMap_eq_nil_iff, List.filterMap_eq_nil_iff] at hsegments
    exact List.map_eq_nil_iff.mp (List.eq_nil_iff_forall_not_mem.mpr fun item hitem => by
      obtain ⟨e, -, rfl⟩ := List.mem_map.mp hitem
      exact absurd (hsegments.2 _ hitem) (Option.some_ne_none _))
  rw [hadded, List.map_nil, List.append_nil] at hitems
  have hkept : FieldSpec.kept base entries = base.names := by
    refine List.Sublist.eq_of_length List.filter_sublist ?_
    rw [hitems, List.length_map] at hlength
    rw [hlength, Heading.names, List.length_map]
  rw [hitems, hkept]

/-- What is not computed is renamed or kept. -/
theorem carriedItem_of_plain {name : String}
    (h : (FieldSpec.carriedItem entries name).segment? = none) :
    FieldSpec.carriedItem entries name
      = ((FieldSpec.renames entries).lookup name).elim (.project name) (.rename name) := by
  unfold FieldSpec.carriedItem at h ⊢
  cases hr : (FieldSpec.renames entries).lookup name with
  | some target => rfl
  | none =>
      cases he : (FieldSpec.extensions entries).lookup name with
      | some segment =>
          rw [hr, he] at h
          cases h
      | none => rfl

/-- A rename keeps each column in its place. -/
theorem renamed_output {expanded : List (ExpandedField Segment)}
    (h : FieldSpec.expand base entries = .ok expanded)
    (hitems : items = expanded.filterMap FieldItem.ofExpanded?)
    (hsegments : items.filterMap FieldItem.segment? = []) (hlength : items.length = base.length)
    (houtput : outputHeading base [] items = .ok output) :
    ((items.filterMap FieldItem.renaming?).map Prod.fst).Nodup ∧
      (∀ pair ∈ items.filterMap FieldItem.renaming?, pair.1 ∈ base.names) ∧
      output = base.map fun c =>
        ⟨((items.filterMap FieldItem.renaming?).lookup c.name).getD c.name, c.type⟩ := by
  obtain rfl := items_eq_carried h hitems hsegments hlength
  -- with no segments among the items each column is carried, renamed or not
  have hcarried : ∀ name ∈ base.names, FieldSpec.carriedItem entries name
      = ((FieldSpec.renames entries).lookup name).elim (.project name) (.rename name) := by
    rw [List.filterMap_map, List.filterMap_eq_nil_iff] at hsegments
    exact fun name hname => carriedItem_of_plain (hsegments name hname)
  -- so the renamings are those asked for, in the order of the columns
  have hpairs : (base.names.map (FieldSpec.carriedItem entries)).filterMap FieldItem.renaming?
      = base.names.filterMap fun name =>
          ((FieldSpec.renames entries).lookup name).map (name, ·) := by
    rw [List.filterMap_map]
    refine List.filterMap_congr fun name hname => ?_
    rw [Function.comp_apply, hcarried name hname]
    cases (FieldSpec.renames entries).lookup name with
    | some target => rfl
    | none => rfl
  -- the columns have distinct names, since the fields made from them could be
  -- put into one row
  have hnames : base.names.Nodup := by
    have houtputs : ((base.names.map (FieldSpec.carriedItem entries)).map FieldItem.output).Nodup :=
      outputHeading_eq_ok houtput List.nodup_nil
    exact (houtputs.of_map _).of_map _
  have hsub := keys_filterMap_lookup
    (fun name => (FieldSpec.renames entries).lookup name) base.names
  rw [hpairs]
  refine ⟨hnames.sublist hsub, fun pair hpair => hsub.subset (List.mem_map_of_mem hpair), ?_⟩
  -- and each column is carried to where it stood
  have hcolumns : output = base.map fun c =>
      (itemSegment base (FieldSpec.carriedItem entries c.name)).column := by
    rw [outputHeading_columns houtput, List.nil_append, List.map_map, Heading.names, List.map_map]
    rfl
  rw [hcolumns]
  refine List.map_congr_left fun c hc => ?_
  have hname : c.name ∈ base.names := List.mem_map_of_mem hc
  have htype : itemSegment.typeIn base c.name = c.type := by
    unfold itemSegment.typeIn
    rw [Heading.get?_eq_some hnames hc]
    rfl
  rw [lookup_filterMap_lookup _ hnames hname, hcarried c.name hname]
  cases (FieldSpec.renames entries).lookup c.name with
  | some target => exact congrArg (Column.mk target) htype
  | none => exact congrArg (Column.mk c.name) htype

-- ========================================================== the list

/-- Without all-but every value is computed, also one that is a bare
name. -/
theorem fieldEntry_computed {f : FieldFrame} (hframe : w.frames.head? = some f)
    (hf : f.allBut = false) (name : String) (mark : Nat) (value : Expr) :
    fieldEntry catalog (.computed name mark value) w
      = (computedField catalog name mark value >>= fun segment =>
          pure (.extend name segment)) w := by
  have hsource : renameSource? value w = .ok none w := by
    unfold renameSource?
    split
    · rename_i source
      have hrename : isRename source w = .ok false w := by
        rw [isRename, get_bind_apply]
        cases hw : w.frames with
        | nil => rfl
        | cons g frames =>
            rw [hw] at hframe
            cases hframe
            show EStateM.Result.ok (f.allBut && _) w = _
            rw [hf, Bool.false_and]
      show EStateM.bind (isRename source) _ w = _
      unfold EStateM.bind
      rw [hrename]
      rfl
    · rfl
  show EStateM.bind (renameSource? value) _ w = _
  unfold EStateM.bind
  rw [hsource]

/-- So only an all-but list renames. -/
theorem fieldEntries_no_renames {f : FieldFrame} (hf : f.allBut = false)
    {written : List FieldEntry} {fields : List (FieldSpec Segment)}
    (hframe : w.frames.head? = some f) (h : fieldEntries catalog written w = .ok fields w') :
    FieldSpec.renames fields = [] := by
  induction written generalizing w fields w' with
  | nil =>
      cases h
      rfl
  | cons entry rest ih =>
      rw [fieldEntries_cons] at h
      obtain ⟨field, w₁, hfield, h⟩ := bind_eq_ok.mp h
      obtain ⟨others, w₂, hothers, h⟩ := bind_eq_ok.mp h
      cases h
      cases entry with
      | plain name mark =>
          cases hfield
          exact (ih hframe hothers :)
      | computed name mark value =>
          rw [fieldEntry_computed hframe hf] at hfield
          obtain ⟨segment, w₃, hsegment, hfield⟩ := bind_eq_ok.mp hfield
          cases hfield
          obtain ⟨slots, hwidens, -⟩ := field_lists (expression_builds catalog false value).turns
            name mark w segment w₁ hsegment
          exact (ih (by rw [hwidens.frames, hframe]) hothers :)

/-- Renamings are carried over from the entries of a list. -/
theorem renamings_ofSpec (entries : List (FieldSpec Segment)) :
    (entries.map FieldItem.ofSpec).filterMap FieldItem.renaming? = FieldSpec.renames entries := by
  rw [List.filterMap_map]
  refine List.filterMap_congr fun entry _ => ?_
  cases entry with
  | project name => rfl
  | rename source target => rfl
  | extend name segment => rfl

/-- The node of a list declares what it puts out. -/
theorem fieldNode_declares {f : FieldFrame} {node : Node} {order : List Segment} {accums : Nat}
    {type : DataType} (hbase : f.base.heading? = some base)
    (hrenames : f.allBut = false → FieldSpec.renames entries = [])
    (hitems : fieldItems f entries w = .ok items w')
    (houtput : outputHeading base [] items = .ok output) (htype : type.heading? = some output) :
    Node.Declares node base (fieldNode node base output type order items accums) := by
  unfold fieldNode
  split
  · exact rfl
  · rcases Strategy.select_cases items (!order.isEmpty) base.length with
      ⟨kind, hselect⟩ | ⟨-, hcomputed, ⟨hselect, hrenamings⟩ | ⟨hselect, hrenamings, hlength⟩⟩
    · rw [hselect]
      refine ⟨rfl, htype.trans ?_⟩
      rw [outputHeading_columns houtput, List.nil_append, List.map_map]
      rfl
    · rw [hselect]
      exact ⟨rfl, htype, projected_output houtput hcomputed hrenamings⟩
    · rw [hselect]
      obtain ⟨-, ⟨hplain, hmap⟩ | ⟨-, expanded, hexpand, hmap⟩⟩ := fieldItems_cases hitems
      · rw [hmap, renamings_ofSpec, hrenames hplain] at hrenamings
        exact absurd rfl hrenamings
      · rw [hbase] at hexpand
        obtain ⟨hnodup, hnames, rfl⟩ := renamed_output hexpand hmap hcomputed hlength houtput
        exact ⟨rfl, hnodup, hnames, htype⟩

/-- The type of a list's node is that of the base if the list only
orders it. Otherwise it is the type that was made for it. -/
theorem dataType_fieldNode (node : Node) (base output : Heading) (type : DataType)
    (order : List Segment) (items : List FieldItem) (accums : Nat) :
    (fieldNode node base output type order items accums).dataType
      = if (fieldNode node base output type order items accums).isOrder then node.dataType
        else type := by
  unfold fieldNode
  split
  · rfl
  · split
    · rfl
    · rfl
    · rfl

/-- A list puts out a relation over a relation, and a tuple over
anything else unless it only orders. -/
structure Declared (node : Node) (base : Heading) (n : Node) : Prop where
  heading : Node.Declares node base n
  order : n.isOrder = true → n.dataType = node.dataType
  relation : n.dataType.isRelation = node.dataType.isRelation
  tuple : n.isOrder = false → node.dataType.isRelation = false →
    ∃ output, n.dataType = .tuple output

/-- The type that is made for a list. -/
theorem listType_cases (base : DataType) (output : Heading) {type : DataType}
    (h : (if base.isRelation then DataType.relation output else .tuple output) = type) :
    type.heading? = some output ∧ type.isRelation = base.isRelation ∧
      (base.isRelation = false → type = .tuple output) := by
  subst h
  cases base.isRelation with
  | true => exact ⟨rfl, rfl, nofun⟩
  | false => exact ⟨rfl, rfl, fun _ => rfl⟩

/-- However a list is turned into a node, the node declares the columns
that its items put out. -/
theorem finishFields_declares {node n : Node} {order : List Segment} {keepOpen allBut : Bool}
    {frames : List FieldFrame} (hframes : w.frames = ⟨node.dataType, allBut⟩ :: frames)
    (hbase : node.dataType.heading? = some base)
    (hrenames : allBut = false → FieldSpec.renames entries = [])
    (h : finishFields node order entries keepOpen w = .ok n w') : Declared node base n := by
  obtain ⟨f, rest, items, output, c, hframe, hitems, hheading, -, rfl⟩ := finishFields_steps h
  obtain ⟨rfl, -⟩ := List.cons.inj (hframe.symm.trans hframes)
  clear h
  dsimp only at hheading ⊢
  rw [hbase, Option.getD_some] at hheading ⊢
  generalize htype : (if node.dataType.isRelation then DataType.relation output
    else .tuple output) = type
  obtain ⟨houtput, hrelation, htuple⟩ := listType_cases node.dataType output htype
  have hnode := dataType_fieldNode node base output type order items c.total
  refine ⟨fieldNode_declares hbase hrenames hitems hheading houtput, fun horder => ?_, ?_,
    fun horder hplain => ⟨output, ?_⟩⟩
  · rw [hnode, if_pos horder]
  · rw [hnode]
    split
    · rfl
    · exact hrelation
  · rw [hnode, horder]
    exact htuple hplain

/-- A field list that is built has the heading that its node produces:
the columns of its segments, the columns of the base under their new
names or some of them, or those of the base. -/
theorem list_declares_what_it_produces {keepOpen : Bool} {mark : Nat} {e : Expr} {l : FieldList}
    {n : Node} (h : expression catalog keepOpen (.fields mark e l) w = .ok n w') :
    ∃ node w₁ heading, expression catalog true e w = .ok node w₁ ∧
      node.dataType.heading? = some heading ∧ Declared node heading n := by
  rw [expression_fields, located_eq_ok] at h
  obtain ⟨node, w₁, hnode, h⟩ := bind_eq_ok.mp h
  obtain ⟨slots, w₀, -, -, -, hleft⟩ := expression_builds catalog true e w node w₁ hnode
  obtain ⟨t, order, fields, w₂, w₃, hheading, horder, hfields, hfinish⟩ := list_run hleft h
  obtain ⟨heading, hheading⟩ : ∃ heading, node.dataType.heading? = some heading :=
    Option.isSome_iff_exists.mp (Option.isNone_eq_false_iff.mp hheading)
  have hkeys := (orderKeys_eq_ok horder).1.frames
  obtain ⟨own, hlist, -⟩ := fieldEntries_lists catalog l.entries w₂ fields w₃ hfields
  -- keys and entries are built on the frame of the list
  have hframes : w₃.frames = ⟨node.dataType, l.allBut⟩ :: w₀.frames := hlist.frames.trans hkeys
  refine ⟨node, w₁, heading, hnode, hheading, finishFields_declares hframes hheading ?_ hfinish⟩
  -- a list of plain columns has no renames among its entries
  exact fun hplain => fieldEntries_no_renames (f := ⟨node.dataType, l.allBut⟩) hplain
    (by rw [hkeys]; rfl) hfields

/-- A row with its first column under another name. -/
def relabeledRow : Expr :=
  .fields 0 (.row 0 [⟨"a", .bool 0 true⟩, ⟨"b", .text 0 "t"⟩])
    ⟨true, [], [.computed "x" 0 (.name 0 "a")]⟩

theorem list_declares_what_it_produces_relabeled :
    ∃ n w', expression {} false relabeledRow { context := .fresh } = .ok n w' ∧
      n.dataType.heading?.map Heading.names = some ["x", "b"] ∧
      ∃ node heading, node.dataType.heading? = some heading ∧ Declared node heading n := by
  have hbuilt : endsWith (fun n _ => n.dataType.heading?.map Heading.names == some ["x", "b"])
      (expression {} false relabeledRow { context := .fresh }) = true := by decide +kernel
  obtain ⟨n, w', hn, hnames⟩ := endsWith_eq_true hbuilt
  obtain ⟨node, w₁, heading, -, hheading, hdeclared⟩ := list_declares_what_it_produces hn
  exact ⟨n, w', hn, beq_iff_eq.mp hnames, node, heading, hheading, hdeclared⟩

end Build

end RelQuery
