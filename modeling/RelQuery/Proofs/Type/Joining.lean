/-
Headings of joined relations.

Two headings agree if a name that both have stands for equal types. If
they do, then `union` is the columns of the left one followed by those
of the right one whose names are new (`joined`), and `compose` the
columns whose names the other side does not have (`divided`); if they
do not, both fail.

The left side decides under which of two equal types a shared column
is listed, and in what order. Neither is seen by a comparison of
headings, so what a heading says is which columns it has up to equality
of types (`HasColumn`): of a joined heading that is the disjunction of
what the two say, and headings that have the same columns are the same.
-/
import RelQuery.Proofs.Type.Standard
import RelQuery.Proofs.Type.Equality

namespace RelQuery

namespace Heading

variable {h k l m : Heading} {c : Column}

/-- A column of that name has an equal type. -/
def HasColumn (h : Heading) (c : Column) : Prop :=
  ∃ d ∈ h, d.name = c.name ∧ d.type.same c.type = true

/-- Columns of one name have equal types. -/
def Agree (h k : Heading) : Prop :=
  ∀ c ∈ h, ∀ d ∈ k, c.name = d.name → c.type.same d.type = true

/-- The columns of both, those of the left heading first. -/
def joined (h k : Heading) : Heading :=
  h ++ k.filter fun c => !h.has c.name

/-- The columns of one heading only. -/
def divided (h k : Heading) : Heading :=
  h.filter (fun c => !k.has c.name) ++ k.filter fun c => !h.has c.name

-- ============================================================ names

/-- A column of a join is one of the first heading or a new one of the
second. -/
theorem mem_joined : c ∈ h.joined k ↔ c ∈ h ∨ c ∈ k ∧ c.name ∉ h.names := by
  rw [joined, List.mem_append, List.mem_filter, Bool.not_eq_true', Bool.eq_false_iff, Ne,
    has_eq_true]

/-- A column of a composition is one of either heading, if not of both. -/
theorem mem_divided :
    c ∈ h.divided k ↔ c ∈ h ∧ c.name ∉ k.names ∨ c ∈ k ∧ c.name ∉ h.names := by
  simp only [divided, List.mem_append, List.mem_filter, Bool.not_eq_true', Bool.eq_false_iff,
    Ne, has_eq_true]

theorem mem_names {name : String} : name ∈ h.names ↔ ∃ c ∈ h, c.name = name :=
  List.mem_map

theorem mem_names_joined {name : String} :
    name ∈ (h.joined k).names ↔ name ∈ h.names ∨ name ∈ k.names := by
  simp only [mem_names, mem_joined]
  grind

/-- Columns with new names may be added. -/
theorem nodup_names_append (hh : h.names.Nodup) (hk : k.names.Nodup)
    (hfree : ∀ c ∈ k, c.name ∉ h.names) : (names (h ++ k)).Nodup := by
  rw [names_append, List.nodup_append]
  refine ⟨hh, hk, ?_⟩
  rintro _ hname _ hother rfl
  obtain ⟨c, hc, rfl⟩ := List.mem_map.mp hother
  exact hfree c hc hname

theorem nodup_names_filter (hh : h.names.Nodup) (p : Column → Bool) :
    (names (h.filter p)).Nodup :=
  hh.sublist (List.filter_sublist.map _)

/-- The names in a join are distinct. -/
theorem nodup_names_joined (hh : h.names.Nodup) (hk : k.names.Nodup) :
    (h.joined k).names.Nodup := by
  refine nodup_names_append hh (nodup_names_filter hk _) fun c hc => ?_
  rw [← has_eq_true]
  simpa using (List.mem_filter.mp hc).2

/-- The names in a composition are distinct. -/
theorem nodup_names_divided (hh : h.names.Nodup) (hk : k.names.Nodup) :
    (h.divided k).names.Nodup := by
  refine nodup_names_append (nodup_names_filter hh _) (nodup_names_filter hk _) fun c hc hname => ?_
  obtain ⟨d, hd, hsame⟩ := List.mem_map.mp hname
  have hfree : c.name ∉ h.names := by
    rw [← has_eq_true]
    simpa using (List.mem_filter.mp hc).2
  rw [← hsame] at hfree
  exact hfree (List.mem_map_of_mem (List.mem_filter.mp hd).1)

-- ============================================================ union

/-- A heading agrees with one more column if it agrees on that name. -/
theorem agree_cons : h.Agree (c :: k) ↔
    (∀ d ∈ h, d.name = c.name → d.type.same c.type = true) ∧ h.Agree k := by
  simp only [Agree, List.forall_mem_cons]
  exact forall₂_and

theorem agree_append : Agree (h ++ l) k ↔ h.Agree k ∧ l.Agree k :=
  List.forall_mem_append

theorem joined_cons_of_has (hc : c.name ∈ h.names) : h.joined (c :: k) = h.joined k := by
  rw [joined, joined, List.filter_cons_of_neg]
  simpa using has_eq_true.mpr hc

/-- A new column may as well have been there before. -/
theorem joined_cons_of_new (hc : c.name ∉ h.names) (hk : c.name ∉ k.names) :
    h.joined (c :: k) = joined (h ++ [c]) k := by
  rw [joined, joined, List.filter_cons_of_pos (by simpa [← has_eq_true] using hc),
    List.append_assoc, List.singleton_append]
  refine congrArg (h ++ c :: ·) (List.filter_congr fun d hd => ?_)
  have hname : c.name ≠ d.name := fun hname => hk (hname ▸ List.mem_map_of_mem hd)
  simp [has, hname]

/-- `union` goes through if the headings agree, and joins them. -/
theorem union_eq_ok (hh : h.names.Nodup) (hk : k.names.Nodup) :
    h.union k = .ok m ↔ h.Agree k ∧ m = h.joined k := by
  -- the induction is on the second heading, whose columns are added one by one
  induction k generalizing h with
  | nil =>
      have hjoined : h.joined [] = h := List.append_nil h
      rw [union, hjoined, Except.ok.injEq, eq_comm]
      exact (and_iff_right fun _ _ _ hd => absurd hd List.not_mem_nil).symm
  | cons c rest ih =>
      obtain ⟨hfree, hrest⟩ := List.nodup_cons.mp hk
      rw [union, agree_cons]
      cases hget : h.get? c.name with
      | none =>
          -- a new column is added, and no later one has its name
          have hnew := get?_eq_none.mp hget
          have hpushed := nodup_names_push (push_eq_ok.mpr ⟨hnew, rfl⟩) hh
          rw [joined_cons_of_new hnew hfree, ih hpushed hrest, agree_append]
          refine and_congr_left' ⟨fun hagree => ⟨fun d hd hname => ?_, hagree.1⟩, fun hagree => ?_⟩
          · exact absurd (hname ▸ List.mem_map_of_mem hd) hnew
          · refine ⟨hagree.2, fun d hd e he hname => ?_⟩
            cases List.mem_singleton.mp hd
            exact absurd (List.mem_map.mpr ⟨e, he, hname.symm⟩) hfree
      | some d =>
          -- a column that is there must have the same type, and then nothing is added
          have hd := List.mem_of_find?_eq_some hget
          have hname := get?_name hget
          have hcompare : (∀ e ∈ h, e.name = c.name → e.type.same c.type = true) ↔
              d.type.same c.type = true := by
            refine ⟨fun hall => hall d hd hname, fun hsame e he hother => ?_⟩
            rw [List.inj_on_of_nodup_map hh he hd (hother.trans hname.symm)]
            exact hsame
          rw [joined_cons_of_has (hname ▸ List.mem_map_of_mem hd), hcompare, and_assoc]
          by_cases hsame : d.type.same c.type = true
          · simp only [hsame, if_true, true_and]
            exact ih hh hrest
          · simp [hsame]

/-- `compose` goes through if the headings agree as well, and keeps
what is not shared. -/
theorem compose_eq_ok (hh : h.names.Nodup) (hk : k.names.Nodup) :
    h.compose k = .ok m ↔ h.Agree k ∧ m = h.divided k := by
  have hfilter : (h.joined k).filter (fun c => !(h.has c.name && k.has c.name))
      = h.divided k := by
    rw [joined, divided, List.filter_append, List.filter_filter]
    refine congr (congrArg _ (List.filter_congr fun c hc => ?_)) (List.filter_congr fun c _ => ?_)
    · rw [has_eq_true.mpr (List.mem_map_of_mem hc), Bool.true_and]
    · cases h.has c.name <;> simp
  rw [compose, except_bind_eq_ok]
  simp only [union_eq_ok hh hk]
  constructor
  · rintro ⟨_, ⟨hagree, rfl⟩, ⟨⟩⟩
    exact ⟨hagree, hfilter⟩
  · rintro ⟨hagree, rfl⟩
    exact ⟨_, ⟨hagree, rfl⟩, congrArg _ hfilter⟩

-- ========================================================== columns

theorem HasColumn.mem_names (hc : h.HasColumn c) : c.name ∈ h.names := by
  obtain ⟨d, hd, hname, -⟩ := hc
  rw [← hname]
  exact List.mem_map_of_mem hd

/-- A joined heading has the columns of either side. -/
theorem hasColumn_joined (hagree : h.Agree k) :
    (h.joined k).HasColumn c ↔ h.HasColumn c ∨ k.HasColumn c := by
  constructor
  · rintro ⟨d, hd, hname, hsame⟩
    rcases mem_joined.mp hd with hd | ⟨hd, -⟩
    · exact .inl ⟨d, hd, hname, hsame⟩
    · exact .inr ⟨d, hd, hname, hsame⟩
  · rintro (⟨d, hd, hname, hsame⟩ | ⟨d, hd, hname, hsame⟩)
    · exact ⟨d, mem_joined.mpr (.inl hd), hname, hsame⟩
    · -- the left side lists a shared column, under an equal type
      by_cases hshared : d.name ∈ h.names
      · obtain ⟨e, he, hother⟩ := List.mem_map.mp hshared
        exact ⟨e, mem_joined.mpr (.inl he), hother.trans hname,
          DataType.same_trans (hagree e he d hd hother) hsame⟩
      · exact ⟨d, mem_joined.mpr (.inr ⟨hd, hshared⟩), hname, hsame⟩

/-- A divided heading has the columns of one side only. -/
theorem hasColumn_divided : (h.divided k).HasColumn c ↔
    h.HasColumn c ∧ c.name ∉ k.names ∨ k.HasColumn c ∧ c.name ∉ h.names := by
  constructor
  · rintro ⟨d, hd, hname, hsame⟩
    rw [mem_divided, hname] at hd
    exact hd.imp (fun hd => ⟨⟨d, hd.1, hname, hsame⟩, hd.2⟩)
      fun hd => ⟨⟨d, hd.1, hname, hsame⟩, hd.2⟩
  · rintro (⟨⟨d, hd, hname, hsame⟩, hfree⟩ | ⟨⟨d, hd, hname, hsame⟩, hfree⟩)
    · exact ⟨d, mem_divided.mpr (.inl ⟨hd, hname ▸ hfree⟩), hname, hsame⟩
    · exact ⟨d, mem_divided.mpr (.inr ⟨hd, hname ▸ hfree⟩), hname, hsame⟩

/-- Headings with the same columns are the same. -/
theorem sameHeading_of_hasColumn (hh : (DataType.relation h).namesDistinct = true)
    (hk : (DataType.relation k).namesDistinct = true)
    (hcolumns : ∀ c, h.HasColumn c ↔ k.HasColumn c) : DataType.sameHeading h k = true := by
  obtain ⟨hnames, htypes⟩ := DataType.namesDistinct_relation.mp hh
  obtain ⟨hnames', htypes'⟩ := DataType.namesDistinct_relation.mp hk
  have hleft : ∀ c ∈ h, k.HasColumn c := fun c hc =>
    (hcolumns c).mp ⟨c, hc, rfl, DataType.same_refl (htypes c hc)⟩
  have hright : ∀ c ∈ k, h.HasColumn c := fun c hc =>
    (hcolumns c).mpr ⟨c, hc, rfl, DataType.same_refl (htypes' c hc)⟩
  have hperm : h.names.Perm k.names := by
    refine (List.perm_ext_iff_of_nodup hnames hnames').mpr fun name =>
      ⟨fun hname => ?_, fun hname => ?_⟩
    · obtain ⟨c, hc, rfl⟩ := List.mem_map.mp hname
      exact (hleft c hc).mem_names
    · obtain ⟨c, hc, rfl⟩ := List.mem_map.mp hname
      exact (hright c hc).mem_names
  refine DataType.sameHeading_iff.mpr ⟨?_, fun c hc => ?_⟩
  · simpa [names] using hperm.length_eq
  · obtain ⟨d, hd, hname, hsame⟩ := hleft c hc
    refine ⟨d, ?_, DataType.same_symm (htypes' d hd) hsame⟩
    rw [← hname]
    exact get?_eq_some hnames' hd

-- ============================================================= laws

/-- The join of two relation types has distinct names throughout. -/
theorem namesDistinct_joined (hh : (DataType.relation h).namesDistinct = true)
    (hk : (DataType.relation k).namesDistinct = true) :
    (DataType.relation (h.joined k)).namesDistinct = true := by
  rw [DataType.namesDistinct_relation] at hh hk ⊢
  refine ⟨nodup_names_joined hh.1 hk.1, fun c hc => ?_⟩
  rcases mem_joined.mp hc with hc | ⟨hc, -⟩
  · exact hh.2 c hc
  · exact hk.2 c hc

/-- The composition of two relation types has distinct names throughout. -/
theorem namesDistinct_divided (hh : (DataType.relation h).namesDistinct = true)
    (hk : (DataType.relation k).namesDistinct = true) :
    (DataType.relation (h.divided k)).namesDistinct = true := by
  rw [DataType.namesDistinct_relation] at hh hk ⊢
  refine ⟨nodup_names_divided hh.1 hk.1, fun c hc => ?_⟩
  rcases mem_divided.mp hc with ⟨hc, -⟩ | ⟨hc, -⟩
  · exact hh.2 c hc
  · exact hk.2 c hc

theorem Agree.symm (hh : ∀ c ∈ h, c.type.namesDistinct = true) (hagree : h.Agree k) :
    k.Agree h :=
  fun d hd c hc hname => DataType.same_symm (hh c hc) (hagree c hc d hd hname.symm)

/-- Joined in either order, headings are the same. -/
theorem joined_comm (hh : (DataType.relation h).namesDistinct = true)
    (hk : (DataType.relation k).namesDistinct = true) (hagree : h.Agree k) :
    DataType.sameHeading (h.joined k) (k.joined h) = true := by
  have hback := hagree.symm (DataType.namesDistinct_relation.mp hh).2
  refine sameHeading_of_hasColumn (namesDistinct_joined hh hk) (namesDistinct_joined hk hh)
    fun c => ?_
  rw [hasColumn_joined hagree, hasColumn_joined hback, or_comm]

/-- Composition is the same both ways. -/
theorem divided_comm (hh : (DataType.relation h).namesDistinct = true)
    (hk : (DataType.relation k).namesDistinct = true) :
    DataType.sameHeading (h.divided k) (k.divided h) = true := by
  refine sameHeading_of_hasColumn (namesDistinct_divided hh hk) (namesDistinct_divided hk hh)
    fun c => ?_
  rw [hasColumn_divided, hasColumn_divided, or_comm]

/-- Agreement with a joined heading is agreement with both. -/
theorem agree_joined_left (hh : ∀ c ∈ h, c.type.namesDistinct = true) (hagree : h.Agree k) :
    (h.joined k).Agree l ↔ h.Agree l ∧ k.Agree l := by
  constructor
  · refine fun hjoined => ⟨fun c hc => hjoined c (mem_joined.mpr (.inl hc)),
      fun c hc d hd hname => ?_⟩
    by_cases hshared : c.name ∈ h.names
    · obtain ⟨e, he, hother⟩ := List.mem_map.mp hshared
      have hback := DataType.same_symm (hh e he) (hagree e he c hc hother)
      exact DataType.same_trans hback
        (hjoined e (mem_joined.mpr (.inl he)) d hd (hother.trans hname))
    · exact hjoined c (mem_joined.mpr (.inr ⟨hc, hshared⟩)) d hd hname
  · rintro ⟨hleft, hright⟩ c hc
    rcases mem_joined.mp hc with hc | ⟨hc, -⟩
    · exact hleft c hc
    · exact hright c hc

/-- A heading agrees with a join if it agrees with both parts. -/
theorem agree_joined_right (hagree : k.Agree l) :
    h.Agree (k.joined l) ↔ h.Agree k ∧ h.Agree l := by
  constructor
  · refine fun hjoined => ⟨fun c hc d hd => hjoined c hc d (mem_joined.mpr (.inl hd)),
      fun c hc d hd hname => ?_⟩
    by_cases hshared : d.name ∈ k.names
    · obtain ⟨e, he, hother⟩ := List.mem_map.mp hshared
      have hfirst := hjoined c hc e (mem_joined.mpr (.inl he)) (hname.trans hother.symm)
      exact DataType.same_trans hfirst (hagree e he d hd hother)
    · exact hjoined c hc d (mem_joined.mpr (.inr ⟨hd, hshared⟩)) hname
  · rintro ⟨hleft, hright⟩ c hc d hd
    rcases mem_joined.mp hd with hd | ⟨hd, -⟩
    · exact hleft c hc d hd
    · exact hright c hc d hd

/-- Joining is associative, order of columns included. -/
theorem joined_assoc : (h.joined k).joined l = h.joined (k.joined l) := by
  have hhas : ∀ name, (h.joined k).has name = (h.has name || k.has name) := by
    intro name
    rw [Bool.eq_iff_iff, Bool.or_eq_true, has_eq_true, has_eq_true, has_eq_true, mem_names_joined]
  rw [joined, joined, List.append_assoc, joined, joined, List.filter_append, List.filter_filter]
  refine congrArg (fun rest => h ++ (k.filter _ ++ rest)) (List.filter_congr fun c _ => ?_)
  rw [← joined, hhas, Bool.not_or]

end Heading

end RelQuery
