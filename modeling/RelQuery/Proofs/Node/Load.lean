/-
The columns that a typed tree loads, with their types.

A variable loads one column of the row at hand, the current row all of
them. `ownLoads` are the columns that the code of a tree loads by name,
copied values included; `Loads` counts everything below the tree, also
in nested segments and bindings. `Copies` tells the names that are
loaded inside copies of bound values: there the row at hand may be
another one than where the value was bound.

The header of a segment is faithful if it gives the columns that the
code of its body loads the types that they have there, unless the body
copies a value that loads another column of that name
(`Segment.IsFaithful`).
-/
import RelQuery.Proofs.Build.Closing

namespace RelQuery

namespace Node

/-- The column that a variable loads from a row. -/
def column? : Node → Option Column
  | .variable name source type => if source.isLookup then some ⟨name, type⟩ else none
  | _ => none

/-- The columns that a node itself loads. -/
def load : Node → List Column
  | .currentRow type => type.heading?.getD []
  | n => n.column?.toList

/-- The columns that the code of a node loads by name. -/
def ownLoads (n : Node) : List Column :=
  n.own.filterMap column?

/-- The node is somewhere below one of the trees. -/
def Below (nodes : List Node) (m : Node) : Prop :=
  ∃ n ∈ nodes, m ∈ n.nodes

/-- The column is loaded somewhere below one of the trees. -/
def Loads (nodes : List Node) (column : Column) : Prop :=
  ∃ m, Below nodes m ∧ column ∈ m.load

/-- A column of that name is loaded inside a copied value, somewhere
below one of the trees. -/
def Copies (nodes : List Node) (name : String) : Prop :=
  ∃ label value column, Below nodes (.inlined label value) ∧ Loads [value] column ∧
    column.name = name

variable {given made nodes more : List Node} {n m : Node} {column : Column} {name : String}

/-- A tree loads what its root loads and what its operands do. -/
theorem ownLoads_eq (n : Node) : n.ownLoads = n.column?.toList ++ n.operands.flatMap ownLoads := by
  unfold ownLoads
  rw [own_eq, List.filterMap_cons, List.filterMap_flatMap]
  cases n.column? with
  | none => rfl
  | some column => rfl

theorem below_singleton : Below [n] m ↔ m ∈ n.nodes := by
  unfold Below
  simp

/-- Below two lists of trees is what is below one of them. -/
theorem below_append : Below (nodes ++ more) m ↔ Below nodes m ∨ Below more m := by
  unfold Below
  simp only [List.mem_append]
  grind

/-- What is below an operand, a bound value or a segment's body is below
the node. -/
theorem below_of_part {k : Node} (hk : k ∈ n.parts) (h : m ∈ k.nodes) : Below [n] m :=
  below_singleton.mpr (mem_nodes_parts.mpr (.inr ⟨k, hk, h⟩))

/-- A variable loads its column. -/
theorem mem_load_of_column? (h : n.column? = some column) : column ∈ n.load := by
  cases n with
  | currentRow type => cases h
  | _ =>
      rw [load, h]
      · exact List.mem_cons_self
      · exact fun _ heq => nomatch heq

/-- What the code of a tree loads is loaded below it. -/
theorem loads_of_ownLoads (h : column ∈ n.ownLoads) : Loads [n] column := by
  obtain ⟨m, hm, hcolumn⟩ := List.mem_filterMap.mp h
  exact ⟨m, below_singleton.mpr (mem_nodes_of_own hm), mem_load_of_column? hcolumn⟩

/-- What an operand reads is read by the node. -/
theorem rowReads_operand (h : m ∈ n.operands) : m.rowReads ⊆ n.rowReads := by
  intro r hr
  rw [rowReads_eq]
  exact List.mem_append_right _ (List.mem_append_left _ (List.mem_flatMap.mpr ⟨m, h, hr⟩))

/-- What the code of a tree loads by name, no segment inside it provides
for. -/
theorem mem_rowReads_of_ownLoads (h : column ∈ n.ownLoads) : ⟨column.name, []⟩ ∈ n.rowReads := by
  induction n using operands_induction with
  | step n ih =>
  rw [ownLoads_eq] at h
  rcases List.mem_append.mp h with h | h
  · cases n <;> simp only [column?, Option.toList_none, List.not_mem_nil] at h
    split at h
    · rename_i hlookup
      obtain rfl := List.mem_singleton.mp h
      rw [rowReads, if_pos hlookup]
      exact List.mem_cons_self
    · exact absurd h List.not_mem_nil
  · obtain ⟨m, hm, hcolumn⟩ := List.mem_flatMap.mp h
    exact rowReads_operand hm (ih m hm hcolumn)

/-- What a copy loads is loaded inside a copied value. -/
theorem copies_inlined {label : String} {value : Node} (h : Loads [value] column) :
    Copies [.inlined label value] column.name :=
  ⟨label, value, column, below_singleton.mpr (mem_nodes_iff.mpr (.inl rfl)), h, rfl⟩

theorem loads_inlined {label : String} {value : Node} (h : Loads [value] column) :
    Loads [.inlined label value] column := by
  obtain ⟨m, hm, hcolumn⟩ := h
  exact ⟨m, below_of_part List.mem_cons_self (below_singleton.mp hm), hcolumn⟩

-- ============================================== trees inside others

/-- Whatever is below the first trees is below the others, literals
aside. -/
def Within (given made : List Node) : Prop :=
  ∀ m, (∀ v, m ≠ .literal v) → Below given m → Below made m

namespace Within

theorem refl (nodes : List Node) : Within nodes nodes :=
  fun _ _ => id

theorem trans (h : Within given nodes) (h' : Within nodes made) : Within given made :=
  fun m hm hbelow => h' m hm (h m hm hbelow)

theorem nil : Within [] made := by
  rintro m - ⟨n, hn, -⟩
  exact absurd hn List.not_mem_nil

/-- Trees beside those that are looked at. -/
theorem frame (others : List Node) (h : Within given made) :
    Within (others ++ given) (others ++ made) := by
  intro m hm hbelow
  rcases below_append.mp hbelow with hbelow | hbelow
  · exact below_append.mpr (.inl hbelow)
  · exact below_append.mpr (.inr (h m hm hbelow))

/-- The parts of a node are within it. -/
theorem of_parts (h : nodes ⊆ n.parts) : Within nodes [n] := by
  rintro m - ⟨k, hk, hm⟩
  exact below_of_part (h hk) hm

theorem operands (n : Node) : Within n.operands [n] :=
  of_parts (List.subset_append_left _ _)

/-- A load inside is a load of the outer trees. -/
theorem loads (h : Within given made) (hloads : Loads given column) : Loads made column := by
  obtain ⟨m, hm, hcolumn⟩ := hloads
  refine ⟨m, h m ?_ hm, hcolumn⟩
  rintro v rfl
  exact absurd hcolumn List.not_mem_nil

theorem copies (h : Within given made) (hcopies : Copies given name) : Copies made name := by
  obtain ⟨label, value, column, hm, hloads, hname⟩ := hcopies
  exact ⟨label, value, column, h _ (fun _ hv => nomatch hv) hm, hloads, hname⟩

end Within

theorem IsPlain.column?_eq (h : n.IsPlain) : n.column? = none := by
  cases n <;> first | rfl | cases h

theorem IsList.column?_eq (h : n.IsList) : n.column? = none := by
  cases n <;> first | rfl | cases h

/-- Trees that have plain nodes put around them are inside the result. -/
theorem Wrap.within (h : Wrap given made) : Within given made := by
  induction h with
  | perm h =>
      rintro m - ⟨n, hn, hm⟩
      exact ⟨n, h.mem_iff.mp hn, hm⟩
  | node h => exact .operands _
  | drop v =>
      intro m hm hbelow
      rw [below_singleton, nodes, List.mem_singleton] at hbelow
      exact absurd hbelow (hm v)
  | append _ _ ih ih' =>
      intro m hm hbelow
      exact below_append.mpr ((below_append.mp hbelow).imp (ih m hm) (ih' m hm))
  | trans _ _ ih ih' => exact ih.trans ih'

/-- Plain nodes load nothing by name. -/
theorem Wrap.ownLoads_subset (h : Wrap given made) :
    made.flatMap ownLoads ⊆ given.flatMap ownLoads := by
  induction h with
  | perm h => exact (h.flatMap_right _).symm.subset
  | @node n h =>
      rw [List.flatMap_singleton, ownLoads_eq, h.column?_eq]
      exact List.Subset.refl _
  | drop v => exact List.nil_subset _
  | append _ _ ih ih' =>
      rw [List.flatMap_append, List.flatMap_append]
      exact List.append_subset.mpr ⟨List.subset_append_of_subset_left _ ih,
        List.subset_append_of_subset_right _ ih'⟩
  | trans _ _ ih ih' => exact List.Subset.trans ih' ih

end Node

-- ========================================================== headers

/-- Names in the header are distinct, and a column that the body loads
by name has its type there, unless a column of that name is loaded in a
copied value. Either way the body loads the column in the header. -/
structure Segment.IsFaithful (s : Segment) : Prop where
  nodup : (Heading.names s.lookup).Nodup
  types : ∀ v ∈ s.body.ownLoads, ∀ d ∈ s.lookup, d.name = v.name →
    d = v ∨ Node.Loads [s.body] d ∧ Node.Copies [s.body] v.name

/-- The header of a load has the one column that it loads. -/
theorem Segment.IsLoad.isFaithful {s : Segment} (h : s.IsLoad) : s.IsFaithful := by
  obtain ⟨name, type, hbody, hlookup, -⟩ := h
  constructor
  · rw [hlookup]
    exact List.pairwise_singleton _ _
  · rw [hbody, hlookup]
    intro v hv d hd _
    obtain rfl : v = ⟨name, type⟩ := List.mem_singleton.mp hv
    exact .inl (List.mem_singleton.mp hd)

namespace Node

/-- The segments of the node have faithful headers. -/
def IsFaithful (n : Node) : Prop :=
  ∀ s ∈ n.segments, s.IsFaithful

variable {n n' : Node}

/-- Without segments there is no header to be wrong. -/
theorem isFaithful_of_segments (h : n.segments = []) : n.IsFaithful := by
  unfold IsFaithful
  rw [h]
  exact fun _ hs => absurd hs List.not_mem_nil

theorem IsPlain.isFaithful (n : Node) (h : n.IsPlain) : n.IsFaithful :=
  isFaithful_of_segments h.segments_eq

theorem isFaithful_bare (n : Node) : n.bare.IsFaithful ↔ n.IsFaithful := by
  unfold IsFaithful
  rw [segments_bare]

theorem load_bare (n : Node) : n.bare.load = n.load := by
  cases n <;> rfl

/-- A copy loads what the value loads, and is faithful if the value
is. -/
theorem copy_faithful (hbare : n'.bare = n.bare)
    (hoperands : List.Forall₂ (fun m m' => (∀ column, Loads [m] column → Loads [m'] column) ∧
      (m.Everywhere IsFaithful → m'.Everywhere IsFaithful)) n.operands n'.operands) :
    (∀ column, Loads [n] column → Loads [n'] column) ∧
      (n.Everywhere IsFaithful → n'.Everywhere IsFaithful) := by
  constructor
  · rintro column ⟨m, hm, hcolumn⟩
    rcases mem_nodes_iff.mp (below_singleton.mp hm) with rfl | ⟨k, hk, hm⟩ | hbound
    · rw [← load_bare, ← hbare, load_bare] at hcolumn
      exact ⟨n', below_singleton.mpr (mem_nodes_iff.mpr (.inl rfl)), hcolumn⟩
    · obtain ⟨k', hk', hloads, -⟩ := Scopes.forall₂_mem_left hoperands hk
      have hwithin : Within [k'] [n'] :=
        .of_parts (List.cons_subset.mpr ⟨List.mem_append_left _ hk', List.nil_subset _⟩)
      exact hwithin.loads (hloads column ⟨m, below_singleton.mpr hm, hcolumn⟩)
    · -- bindings and segments are shared with the value
      rw [← bound_bare, ← hbare, bound_bare, ← segments_bare, ← hbare, segments_bare] at hbound
      exact ⟨m, below_singleton.mpr (mem_nodes_iff.mpr (.inr (.inr hbound))), hcolumn⟩
  · exact everywhere_of_bare isFaithful_bare hbare (hoperands.imp fun _ _ h => h.2)

end Node

end RelQuery
