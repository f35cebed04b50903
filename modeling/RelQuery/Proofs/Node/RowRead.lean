/-
What the code of a typed tree reads of the rows around it.

A column, a parameter or a component is loaded by name, from whatever
row is at hand when the code runs. `rowReads` lists these loads, with
the columns that nested segments put at hand in between: a predicate
over a relation sees the columns of the relation, and so do the fields
and keys of a list. Loads are found through copied values and inside
segments, but not in the bindings of a block, for which there is no
code.

A segment says in its header which columns of the enclosing row it
needs. The header is complete if every load in the segment is listed or
is provided for by a segment inside (`Segment.IsComplete`). A tree is
covered by a set of known names if all its segments have complete
headers and every load that is not provided for inside has a known name
(`Node.IsCovered`).
-/
import RelQuery.Proofs.Node.Own

namespace RelQuery

/-- A load from a row, by name, and the columns of the relations that
segments around it run over. -/
structure RowRead where
  name : String
  around : List String

/-- The same load inside a segment that runs over more columns. -/
def RowRead.inside (columns : List String) (r : RowRead) : RowRead :=
  { r with around := r.around ++ columns }

namespace Node

/-- The columns of a node that is a relation, tuple or user value. -/
def columns (n : Node) : List String :=
  Heading.names (n.dataType.heading?.getD [])

mutual

/-- The loads from rows that the code of a node makes. -/
def rowReads : Node → List RowRead
  | .variable name source _ => if source.isLookup then [⟨name, []⟩] else []
  | .inlined _ value => value.rowReads
  | .block _ body => body.rowReads
  | .call _ args _ _ | .variadic _ args _ | .function _ args _ _ | .selector _ args | .row _ args
  | .table _ args => allRowReads args
  | .fold _ _ arg _ => arg.rowReads
  | .project base _ _ | .rename base _ _ | .component base _ _ | .tupleField base _ _ =>
    base.rowReads
  | .transform base _ keys fields _ _ =>
    base.rowReads ++ (segmentReads keys ++ segmentReads fields).map (·.inside base.columns)
  | .restrict base ⟨_, _, _, _, _, body⟩ =>
    base.rowReads ++ body.rowReads.map (·.inside base.columns)
  | .order base keys => base.rowReads ++ (segmentReads keys).map (·.inside base.columns)
  | .code ⟨_, _, _, _, _, body⟩ => body.rowReads
  | .literal _ | .currentRow _ => []

def allRowReads : List Node → List RowRead
  | [] => []
  | node :: rest => node.rowReads ++ allRowReads rest

def segmentReads : List Segment → List RowRead
  | [] => []
  | ⟨_, _, _, _, _, body⟩ :: rest => body.rowReads ++ segmentReads rest

end

end Node

/-- Every load in the segment is listed in its header, or provided for
by a segment inside it. -/
def Segment.IsComplete (s : Segment) : Prop :=
  ∀ r ∈ s.body.rowReads, r.name ∈ Heading.names s.lookup ∨ r.name ∈ r.around

namespace Node

/-- All segments in the tree have complete headers, and every load that
nothing in the tree provides for has a known name. -/
structure IsCovered (known : String → Prop) (n : Node) : Prop where
  segments : ∀ m ∈ n.nodes, ∀ s ∈ m.segments, s.IsComplete
  reads : ∀ r ∈ n.rowReads, r.name ∈ r.around ∨ known r.name

/-- All trees are covered. -/
def AllCovered (known : String → Prop) (nodes : List Node) : Prop :=
  ∀ n ∈ nodes, n.IsCovered known

variable {known : String → Prop} {args : List Node} {base value : Node} {type : DataType}

theorem IsCovered.mono {known' : String → Prop} {n : Node} (h : n.IsCovered known)
    (hknown : ∀ x, known x → known' x) : n.IsCovered known' :=
  ⟨h.segments, fun r hr => (h.reads r hr).imp_right (hknown r.name)⟩

@[simp] theorem allCovered_nil : AllCovered known [] :=
  fun _ h => absurd h List.not_mem_nil

@[simp] theorem allCovered_cons {n : Node} {rest : List Node} :
    AllCovered known (n :: rest) ↔ n.IsCovered known ∧ AllCovered known rest :=
  List.forall_mem_cons

@[simp] theorem allCovered_append {xs ys : List Node} :
    AllCovered known (xs ++ ys) ↔ AllCovered known xs ∧ AllCovered known ys :=
  List.forall_mem_append

/-- The reads of several nodes are those of each, one after another. -/
theorem allRowReads_eq (nodes : List Node) : allRowReads nodes = nodes.flatMap rowReads := by
  induction nodes with
  | nil => rfl
  | cons node rest ih => rw [allRowReads, ih, List.flatMap_cons]

/-- The reads of segments are those of their bodies. -/
theorem segmentReads_eq (segments : List Segment) :
    segmentReads segments = segments.flatMap (·.body.rowReads) := by
  induction segments with
  | nil => rfl
  | cons segment rest ih =>
      obtain ⟨name, kind, accums, flags, lookup, body⟩ := segment
      rw [segmentReads, ih, List.flatMap_cons]

/-- What a node itself loads. -/
def ownReads : Node → List RowRead
  | .variable name source _ => if source.isLookup then [⟨name, []⟩] else []
  | _ => []

/-- The columns that the segments of a node run over. -/
def columnsBelow (n : Node) : List String :=
  n.operands.flatMap columns

/-- A node reads what it loads itself, what its operands read, and what
its segments read from inside. -/
theorem rowReads_eq (n : Node) : n.rowReads = n.ownReads ++ (n.operands.flatMap rowReads ++
    (n.segments.flatMap (·.body.rowReads)).map (·.inside n.columnsBelow)) := by
  cases n with
  | restrict base predicate =>
      obtain ⟨name, kind, accums, flags, lookup, body⟩ := predicate
      simp [rowReads, ownReads, operands, segments, columnsBelow]
  | code segment =>
      obtain ⟨name, kind, accums, flags, lookup, body⟩ := segment
      simp [rowReads, ownReads, operands, segments, columnsBelow, RowRead.inside]
  | _ =>
      simp [rowReads, ownReads, operands, segments, columnsBelow, allRowReads_eq, segmentReads_eq]

end Node

-- ============================================ coverage of the parts

/-- A segment that runs over some columns: its header is complete, and
its body is covered by the columns and the names known around it. -/
structure Segment.Fits (known : String → Prop) (columns : List String) (s : Segment) : Prop where
  complete : s.IsComplete
  body : s.body.IsCovered fun x => x ∈ columns ∨ known x

namespace Node

variable {known : String → Prop} {base : Node} {type : DataType}

/-- A node is covered if its own loads are of known names, its operands
are covered and its segments fit. The bound values of a block load
nothing, but what segments they have must be complete. -/
theorem isCovered_iff {n : Node} : n.IsCovered known ↔
    (∀ r ∈ n.ownReads, r.name ∈ r.around ∨ known r.name) ∧ AllCovered known n.operands ∧
      AllCovered (fun _ => True) n.bound ∧ ∀ s ∈ n.segments, s.Fits known n.columnsBelow := by
  constructor
  · intro h
    refine ⟨fun r hr => h.reads r ?_, fun m hm => ⟨fun k hk => h.segments k ?_, fun r hr =>
      h.reads r ?_⟩, fun m hm => ⟨fun k hk => h.segments k ?_, fun _ _ => .inr trivial⟩,
      fun s hs => ⟨h.segments n (mem_nodes_iff.mpr (.inl rfl)) s hs,
        fun k hk => h.segments k ?_, fun r hr => ?_⟩⟩
    · rw [rowReads_eq]
      exact List.mem_append_left _ hr
    · exact mem_nodes_iff.mpr (.inr (.inl ⟨m, hm, hk⟩))
    · rw [rowReads_eq]
      exact List.mem_append_right _ (List.mem_append_left _ (List.mem_flatMap.mpr ⟨m, hm, hr⟩))
    · exact mem_nodes_iff.mpr (.inr (.inr (.inl ⟨m, hm, hk⟩)))
    · exact mem_nodes_iff.mpr (.inr (.inr (.inr ⟨s, hs, hk⟩)))
    · -- the reads of a body appear in the node as seen from inside
      have hinside : r.inside n.columnsBelow ∈ n.rowReads := by
        rw [rowReads_eq]
        refine List.mem_append_right _ (List.mem_append_right _ (List.mem_map_of_mem ?_))
        exact List.mem_flatMap.mpr ⟨s, hs, hr⟩
      rcases h.reads _ hinside with haround | hknown
      · rcases List.mem_append.mp haround with haround | hcolumn
        · exact .inl haround
        · exact .inr (.inl hcolumn)
      · exact .inr (.inr hknown)
  · rintro ⟨hown, hoperands, hbound, hfits⟩
    constructor
    · intro k hk
      rcases mem_nodes_iff.mp hk with rfl | ⟨m, hm, hk⟩ | ⟨m, hm, hk⟩ | ⟨s, hs, hk⟩
      · exact fun s hs => (hfits s hs).complete
      · exact (hoperands m hm).segments k hk
      · exact (hbound m hm).segments k hk
      · exact (hfits s hs).body.segments k hk
    · rw [rowReads_eq, List.forall_mem_append, List.forall_mem_append]
      refine ⟨hown, fun r hr => ?_, fun _ hinside => ?_⟩
      · obtain ⟨m, hm, hr⟩ := List.mem_flatMap.mp hr
        exact (hoperands m hm).reads r hr
      · obtain ⟨r, hbodies, rfl⟩ := List.mem_map.mp hinside
        obtain ⟨s, hs, hr⟩ := List.mem_flatMap.mp hbodies
        rcases (hfits s hs).body.reads r hr with haround | hcolumn | hknown
        · exact .inl (List.mem_append_left _ haround)
        · exact .inl (List.mem_append_right _ hcolumn)
        · exact .inr hknown

/-- A node around covered operands that loads nothing itself, binds nothing
and holds no segment. -/
theorem isCovered_of_operands {n : Node} (hown : n.ownReads = []) (hbound : n.bound = [])
    (hsegments : n.segments = []) (h : AllCovered known n.operands) : n.IsCovered known := by
  rw [isCovered_iff, hown, hbound, hsegments]
  exact ⟨List.forall_mem_nil _, h, allCovered_nil, List.forall_mem_nil _⟩

/-- Plain nodes around covered trees are covered. -/
theorem Wrap.allCovered {given made : List Node} (h : Wrap given made)
    (hg : AllCovered known given) : AllCovered known made := by
  induction h with
  | perm h => exact fun n hn => hg n (h.mem_iff.mpr hn)
  | @node n h =>
      have hown : n.ownReads = [] := by cases n <;> first | rfl | cases h
      exact List.forall_mem_singleton.mpr
        (isCovered_of_operands hown h.bound_eq h.segments_eq hg)
  | drop v => exact allCovered_nil
  | append _ _ ih ih' =>
      obtain ⟨hx, hy⟩ := allCovered_append.mp hg
      exact allCovered_append.mpr ⟨ih hx, ih' hy⟩
  | trans _ _ ih ih' => exact ih' (ih hg)

theorem isCovered_currentRow : (currentRow type).IsCovered known :=
  isCovered_of_operands rfl rfl rfl allCovered_nil

/-- A variable that loads from the row needs its name to be known. -/
theorem isCovered_variable {name : String} {source : VariableSource}
    (h : source.isLookup = true → known name) : («variable» name source type).IsCovered known := by
  refine isCovered_iff.mpr ⟨?_, allCovered_nil, allCovered_nil, List.forall_mem_nil _⟩
  intro r hr
  simp only [ownReads] at hr
  split at hr
  · rename_i hlookup
    rw [List.mem_singleton.mp hr]
    exact .inr (h hlookup)
  · exact absurd hr List.not_mem_nil

theorem isCovered_project {heading : Heading} (h : base.IsCovered known) :
    (project base heading type).IsCovered known :=
  isCovered_of_operands rfl rfl rfl (List.forall_mem_singleton.mpr h)

theorem isCovered_rename {pairs : List (String × String)} (h : base.IsCovered known) :
    (rename base pairs type).IsCovered known :=
  isCovered_of_operands rfl rfl rfl (List.forall_mem_singleton.mpr h)

theorem isCovered_block {bindings : List BoundNode} {body : Node} :
    (block bindings body).IsCovered known ↔
      AllCovered (fun _ => True) (bindings.map (·.value)) ∧ body.IsCovered known := by
  simp [isCovered_iff (n := block bindings body), ownReads, operands, bound, segments, and_comm]

/-- The predicate of a restriction sees the columns of the base. -/
theorem isCovered_restrict {predicate : Segment} :
    (restrict base predicate).IsCovered known ↔
      base.IsCovered known ∧ predicate.Fits known base.columns := by
  simp [isCovered_iff (n := restrict base predicate), ownReads, operands, bound, segments,
    columnsBelow]

/-- So do the keys of an ordering, -/
theorem isCovered_order {keys : List Segment} :
    (order base keys).IsCovered known ↔
      base.IsCovered known ∧ ∀ s ∈ keys, s.Fits known base.columns := by
  simp [isCovered_iff (n := order base keys), ownReads, operands, bound, segments, columnsBelow]

/-- and the keys and fields of a list. -/
theorem isCovered_transform {kind : TransformKind} {keys fields : List Segment} {accums : Nat} :
    (transform base kind keys fields accums type).IsCovered known ↔
      base.IsCovered known ∧ ∀ s ∈ keys ++ fields, s.Fits known base.columns := by
  simp [isCovered_iff (n := transform base kind keys fields accums type), ownReads, operands,
    bound, segments, columnsBelow]

/-- A copy of a covered tree is covered, since it has the same loads and
segments and its operands have the same columns. -/
theorem isCovered_of_copy {n n' : Node} (hbare : n'.bare = n.bare)
    (hoperands : List.Forall₂ (fun m m' => m'.dataType = m.dataType ∧
      ∀ known, m.IsCovered known → m'.IsCovered known) n.operands n'.operands)
    (h : n.IsCovered known) : n'.IsCovered known := by
  have hreads (m : Node) : m.bare.ownReads = m.ownReads := by cases m <;> rfl
  have hcolumns : n'.columnsBelow = n.columnsBelow := by
    have hmap : List.Forall₂ (· = ·) (n.operands.map columns) (n'.operands.map columns) := by
      rw [List.forall₂_map_left_iff, List.forall₂_map_right_iff]
      exact hoperands.imp fun m m' hsame => by rw [columns, columns, hsame.1]
    rw [List.forall₂_eq_eq_eq] at hmap
    rw [columnsBelow, columnsBelow, List.flatMap_def, List.flatMap_def, hmap]
  rw [isCovered_iff] at h ⊢
  obtain ⟨hown, hops, hbound, hfits⟩ := h
  rw [← hreads, hbare, hreads, ← bound_bare, hbare, bound_bare, ← segments_bare, hbare,
    segments_bare, hcolumns]
  refine ⟨hown, fun m' hm' => ?_, hbound, hfits⟩
  obtain ⟨m, hm, -, hsame⟩ := Scopes.forall₂_mem_right hoperands hm'
  exact hsame known (hops m hm)

end Node

end RelQuery
