/-
Segments judged by where they stand.

Loading the current row counts as a read of each of its columns, and a
key of an ordering names a column of what it orders. Both are a matter of
names: a block between the row and the load may have taken a name for
itself, and a name that the base does not have may mean a column further
out. `Segment.Lists` and `Segment.IsKeyOver` say what holds of a segment
in given surroundings, these cases included, and a tree heeds its
surroundings if this holds of all the segments below it, each where it
stands (`Node.Heeds`, to be used with `Node.EverywhereIn`).

A copy of a tree shows the columns that the tree shows and heeds its
surroundings as the tree does (`Copied`); and so do trees that have only
been reordered or had plain nodes put around them.
-/
import RelQuery.Proofs.Build.Chain
import RelQuery.Proofs.Node.Load
import RelQuery.Proofs.Node.Surroundings

namespace RelQuery

/-- The code of the node loads a current row with that column, and no
block in between hides its name. -/
def Node.Shows (Γ : Surroundings) (n : Node) (c : Column) : Prop :=
  ∃ Δ h, OwnAt Γ n Δ (.currentRow (.tuple h)) ∧ Heading.get? h c.name = some c ∧
    Δ.hides c.name = false

namespace Segment

/-- The columns of current rows are in the header. One may have another
type there, that of another column of its name which the body loads; then
it is in a copied value. And a segment that is closed reads nothing. -/
structure Lists (Γ : Surroundings) (s : Segment) : Prop where
  shown : ∀ c, s.body.Shows Γ c → ∃ d ∈ s.lookup, d.name = c.name ∧
    (d = c ∨ Node.Loads [s.body] d ∧ Node.Copies [s.body] c.name)
  closed : s.kind = .closed → s.lookup = []

/-- The segment is a key that loads the column. -/
structure LoadsKey (s : Segment) (c : Column) : Prop where
  name : s.name = c.name
  body : s.body = .variable c.name .field c.type
  lookup : s.lookup = [c]

/-- The key loads a column of the base. Where the base has no column of
its name, or is an ordering, it may also be the column that the name
means around the base. -/
def IsKeyOver (Γ : Surroundings) (base : Node) (s : Segment) : Prop :=
  ∃ c, s.LoadsKey c ∧ (Heading.get? base.heading c.name = some c ∨
    Γ.sense? c.name = some (.column c) ∧
      (Heading.get? base.heading c.name = none ∨ base.isOrder = true))

/-- A load of a column lists it. -/
theorem IsLoad.lists {Γ : Surroundings} {s : Segment} (h : s.IsLoad) : s.Lists Γ := by
  obtain ⟨name, type, hbody, hlookup, hkind⟩ := h
  constructor
  · rintro c ⟨Δ, row, hown, -⟩
    rw [hbody] at hown
    cases hown with
    | operand hk => exact absurd hk List.not_mem_nil
  · rw [hkind]
    exact fun h => nomatch h

/-- Only a segment that reads nothing and keeps nothing is closed. -/
theorem lookup_of_closed {lookup : Heading} {accums : Nat} {window : Bool}
    (h : SegmentKind.classify lookup accums window = .closed) : lookup = [] := by
  unfold SegmentKind.classify at h
  split at h
  · cases h
  · split at h
    · cases h
    · split at h
      · exact List.isEmpty_iff.mp ‹_›
      · cases h

end Segment

namespace Node

/-- The segments of the node list what they show, and its keys name
columns of its base. -/
structure Heeds (Γ : Surroundings) (n : Node) : Prop where
  rows : ∀ s ∈ n.segments, s.Lists (n.rowAround Γ)
  keys : ∀ base ∈ n.ground?, ∀ k ∈ n.keys, k.IsKeyOver Γ base

variable {Γ : Surroundings} {n n' : Node} {c : Column} {given made : List Node}

/-- A current row is shown by its own node or by an operand. -/
theorem shows_iff : n.Shows Γ c ↔
    (∃ h, n = .currentRow (.tuple h) ∧ Heading.get? h c.name = some c ∧ Γ.hides c.name = false) ∨
      ∃ k ∈ n.operands, k.Shows (n.inside Γ) c := by
  constructor
  · rintro ⟨Δ, h, hown, hc, hseen⟩
    cases hown with
    | self => exact .inl ⟨h, rfl, hc, hseen⟩
    | operand hk hown => exact .inr ⟨_, hk, Δ, h, hown, hc, hseen⟩
  · rintro (⟨h, rfl, hc, hseen⟩ | ⟨k, hk, Δ, h, hown, hc, hseen⟩)
    · exact ⟨Γ, h, .self _ _, hc, hseen⟩
    · exact ⟨Δ, h, .operand hk hown, hc, hseen⟩

theorem shows_iff_operands (h : ∀ type, n ≠ .currentRow type) :
    n.Shows Γ c ↔ ∃ k ∈ n.operands, k.Shows (n.inside Γ) c := by
  rw [shows_iff]
  exact or_iff_right fun ⟨_, hn, _⟩ => h _ hn

/-- Keys are among the segments. -/
theorem keys_subset (n : Node) : n.keys ⊆ n.segments := by
  cases n with
  | transform base kind keys fields accums type => exact List.subset_append_left keys fields
  | order base keys => exact List.Subset.refl keys
  | _ => exact List.nil_subset _

/-- A node without segments has nothing to heed. -/
theorem heeds_of_segments (h : n.segments = []) : n.Heeds Γ where
  rows := by
    rw [h]
    exact fun _ hs => absurd hs List.not_mem_nil
  keys := by
    intro base _ k hk
    have hmem := n.keys_subset hk
    rw [h] at hmem
    exact absurd hmem List.not_mem_nil

-- ============================================================ copies

theorem isOrder_bare (n : Node) : n.bare.isOrder = n.isOrder := by
  cases n <;> rfl

/-- What a copy has in common with the value. -/
structure Copied (n n' : Node) : Prop where
  bare : n'.bare = n.bare
  type : n'.dataType = n.dataType
  shown : ∀ Γ c, n'.Shows Γ c → n.Shows Γ c
  heeds : ∀ Γ, n.EverywhereIn Heeds Γ → n'.EverywhereIn Heeds Γ

theorem copied_type (hbare : n'.bare = n.bare)
    (hoperands : List.Forall₂ Copied n.operands n'.operands) : n'.dataType = n.dataType :=
  dataType_eq_of_bare hbare (hoperands.imp fun _ _ hcopied => hcopied.type)

/-- A copy shows no row that the tree does not. -/
theorem copied_shown (hbare : n'.bare = n.bare)
    (hoperands : List.Forall₂ Copied n.operands n'.operands) (h : n'.Shows Γ c) : n.Shows Γ c := by
  rcases shows_iff.mp h with ⟨row, rfl, hc, hseen⟩ | ⟨k', hk', hshows⟩
  · obtain rfl : n = .currentRow (.tuple row) := by
      cases n with
      | currentRow type => exact hbare.symm
      | _ => cases hbare
    exact shows_iff.mpr (.inl ⟨row, rfl, hc, hseen⟩)
  · obtain ⟨k, hk, hcopied⟩ := Scopes.forall₂_mem_right hoperands hk'
    rw [← inside_bare, hbare, inside_bare] at hshows
    exact shows_iff.mpr (.inr ⟨k, hk, hcopied.shown _ c hshows⟩)

/-- A copy heeds the same surroundings, segment by segment. -/
theorem copied_heeds (hbare : n'.bare = n.bare)
    (hoperands : List.Forall₂ Copied n.operands n'.operands) (h : n.EverywhereIn Heeds Γ) :
    n'.EverywhereIn Heeds Γ := by
  -- everything that a node says about its surroundings is said alike by its copy
  have hground := ground?_copy hbare hoperands
  have hsegments : n'.segments = n.segments := by rw [← segments_bare, hbare, segments_bare]
  have hbound : n'.boundIn Γ = n.boundIn Γ := by rw [← boundIn_bare, hbare, boundIn_bare]
  have hinside : n'.inside Γ = n.inside Γ := by rw [← inside_bare, hbare, inside_bare]
  have hkeys : n'.keys = n.keys := by rw [← keys_bare, hbare, keys_bare]
  have hheading {base base' : Node} (hcopied : Copied base base') :
      base'.heading = base.heading := by
    rw [heading, hcopied.type]
    rfl
  have hrow : n'.rowAround Γ = n.rowAround Γ := by
    unfold rowAround
    generalize n.ground? = ground at hground
    generalize n'.ground? = ground' at hground
    cases hground with
    | none => rfl
    | some hcopied => exact congrArg Γ.row (hheading hcopied)
  -- so only the operands are others, and they are copies
  rw [everywhereIn_iff] at h ⊢
  obtain ⟨hn, hoperands', hbound', hsegments'⟩ := h
  rw [hsegments, hbound, hinside, hrow]
  refine ⟨⟨?_, ?_⟩, fun k' hk' => ?_, hbound', hsegments'⟩
  · rw [hsegments, hrow]
    exact hn.rows
  · rw [hkeys]
    -- a key is one over the base that the copy stands on, which has the same
    -- heading
    intro base' hbase' k hk
    have hover := hn.keys
    generalize n.ground? = ground at hground hover
    generalize n'.ground? = ground' at hground hbase'
    cases hground with
    | none => cases hbase'
    | some hcopied =>
        cases hbase'
        have hkey := hover _ rfl k hk
        unfold Segment.IsKeyOver at hkey ⊢
        rwa [hheading hcopied, ← isOrder_bare, hcopied.bare, isOrder_bare]
  · obtain ⟨k, hk, hcopied⟩ := Scopes.forall₂_mem_right hoperands hk'
    exact hcopied.heeds _ (hoperands' k hk)

theorem copied_of_operands (hbare : n'.bare = n.bare)
    (hoperands : List.Forall₂ Copied n.operands n'.operands) : Copied n n' where
  bare := hbare
  type := copied_type hbare hoperands
  shown := fun _ _ => copied_shown hbare hoperands
  heeds := fun _ => copied_heeds hbare hoperands

-- ======================================================= plain nodes

theorem IsPlain.ne_currentRow (h : n.IsPlain) (type : DataType) : n ≠ .currentRow type := by
  rintro rfl
  cases h

theorem IsList.ne_currentRow (h : n.IsList) (type : DataType) : n ≠ .currentRow type := by
  rintro rfl
  cases h

theorem IsList.inside_eq (h : n.IsList) : n.inside Γ = Γ := by
  cases n <;> first | rfl | cases h

/-- A list node with segments has a base that they run over. -/
theorem IsList.ground?_isSome (h : n.IsList) {s : Segment} (hs : s ∈ n.segments) :
    n.ground?.isSome = true := by
  cases n with
  | order base keys | transform base kind keys fields accums type => rfl
  | project base heading type | rename base pairs type => exact absurd hs List.not_mem_nil
  | _ => cases h

/-- Plain nodes show what was shown before. -/
theorem Wrap.shows (h : Wrap given made) (hn : n ∈ made) (hshows : n.Shows Γ c) :
    ∃ m ∈ given, m.Shows Γ c := by
  induction h generalizing n with
  | perm h => exact ⟨n, h.mem_iff.mpr hn, hshows⟩
  | node h =>
      obtain rfl := List.mem_singleton.mp hn
      rw [shows_iff_operands h.ne_currentRow, h.inside_eq] at hshows
      exact hshows
  | drop v => exact absurd hn List.not_mem_nil
  | append _ _ ih ih' =>
      rcases List.mem_append.mp hn with hn | hn
      · obtain ⟨m, hm, hshows⟩ := ih hn hshows
        exact ⟨m, List.mem_append_left _ hm, hshows⟩
      · obtain ⟨m, hm, hshows⟩ := ih' hn hshows
        exact ⟨m, List.mem_append_right _ hm, hshows⟩
  | trans _ _ ih ih' =>
      obtain ⟨m, hm, hshows⟩ := ih' hn hshows
      exact ih hm hshows

/-- Plain nodes heed whatever stands around them. -/
theorem Wrap.heeds (h : Wrap given made) (hg : ∀ n ∈ given, n.EverywhereIn Heeds Γ) :
    ∀ n ∈ made, n.EverywhereIn Heeds Γ := by
  induction h with
  | perm h => exact fun n hn => hg n (h.mem_iff.mpr hn)
  | node h =>
      exact List.forall_mem_singleton.mpr (everywhereIn_of_operands h.bound_eq h.segments_eq
        h.inside_eq (heeds_of_segments h.segments_eq) hg)
  | drop v => exact fun _ hn => absurd hn List.not_mem_nil
  | append _ _ ih ih' =>
      obtain ⟨hx, hy⟩ := List.forall_mem_append.mp hg
      exact List.forall_mem_append.mpr ⟨ih hx, ih' hy⟩
  | trans _ _ ih ih' => exact ih' (ih hg)

end Node

end RelQuery
