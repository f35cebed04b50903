/-
What the expansion of a field list puts out.

Only the check can refuse a list, and it has two reasons: an entry needs
a column that the base lacks, or a column of the base is claimed twice.
So in a list that is expanded the columns that are dropped, renamed and
replaced stand apart, and all others are kept: each column of the base
is accounted for by one expanded entry. An extension that replaces a
column is put out where the column stands and the others at the end, so
none is lost and none doubled.
-/
import RelQuery.Proofs.Node.FieldList

namespace RelQuery

namespace ExpandedField

variable {α : Type}

/-- The column of the base that an entry accounts for. -/
def column? (base : Heading) : ExpandedField α → Option String
  | .drop name => some name
  | .keep name => some name
  | .rename source _ => some source
  | .extend name _ => if base.has name then some name else none

/-- The two names of a renamed column. -/
def renaming? : ExpandedField α → Option (String × String)
  | .rename source target => some (source, target)
  | _ => none

/-- The name and the payload of an extension. -/
def extension? : ExpandedField α → Option (String × α)
  | .extend name payload => some (name, payload)
  | _ => none

end ExpandedField

theorem mem_of_lookup {β : Type} {pairs : List (String × β)} {k : String} {v : β}
    (h : pairs.lookup k = some v) : (k, v) ∈ pairs := by
  obtain ⟨l₁, l₂, rfl, -⟩ := List.lookup_eq_some_iff.mp h
  exact List.mem_append_right _ List.mem_cons_self

namespace FieldSpec

variable {α : Type} {base : Heading} {entries : List (FieldSpec α)} {name : String}

-- ====================================================== when it fails

/-- Nothing but the check can fail. -/
theorem expand_fails_iff_check :
    (∃ e, expand base entries = .error e) ↔ ¬checkAll base [] entries = .ok () := by
  unfold expand
  cases checkAll base [] entries with
  | error e => exact ⟨fun _ => nofun, fun _ => ⟨e, rfl⟩⟩
  | ok u => exact ⟨nofun, fun h => absurd rfl h⟩

/-- Claims are distinct exactly if no column of the base is the subject of
two entries. -/
theorem nodup_claims_iff : (claims base entries).Nodup ↔
    ∀ name ∈ base.names, (entries.map subject).count name ≤ 1 := by
  rw [List.nodup_iff_count_le_one]
  refine ⟨fun h name hname => ?_, fun h name => ?_⟩
  · have hone := h name
    rwa [claims, List.count_filter (Heading.has_eq_true.mpr hname)] at hone
  · by_cases hname : name ∈ base.names
    · rw [claims, List.count_filter (Heading.has_eq_true.mpr hname)]
      exact h name hname
    · have hnone : (claims base entries).count name = 0 := List.count_eq_zero.mpr fun hmem =>
        hname (Heading.has_eq_true.mp (List.mem_filter.mp hmem).2)
      rw [hnone]
      exact Nat.zero_le 1

/-- A list is refused for a column that the base lacks, or for one that
is claimed twice. -/
theorem expand_fails_iff : (∃ e, expand base entries = .error e) ↔
    (∃ entry ∈ entries, ∃ name ∈ entry.needs?, name ∉ base.names) ∨
    ∃ name ∈ base.names, 2 ≤ (entries.map subject).count name := by
  rw [expand_fails_iff_check, checkAll_eq_ok, nodup_claims_iff]
  simp only [List.not_mem_nil, not_false_eq_true, implies_true, and_true, not_and_or, not_forall,
    exists_prop, Nat.not_le]
  rfl

-- ================================================ what becomes of what

/-- What a list makes of a base column that it does not drop. -/
inductive Becomes (entries : List (FieldSpec α)) (name : String) : ExpandedField α → Prop where
  | renamed {target : String} (h : .rename name target ∈ entries) :
    Becomes entries name (.rename name target)
  | replaced {payload : α} (h : .extend name payload ∈ entries) :
    Becomes entries name (.extend name payload)
  | kept (h : ∀ entry ∈ entries, entry.subject ≠ name) : Becomes entries name (.keep name)

/-- A kept column becomes what the entries say. -/
theorem carried_becomes (h : name ∈ kept base entries) :
    Becomes entries name (carried entries name) := by
  have hdrops : .project name ∉ entries := by
    rw [← mem_drops]
    simpa using (List.mem_filter.mp h).2
  unfold carried
  cases hr : (renames entries).lookup name with
  | some target => exact .renamed (mem_renames.mp (mem_of_lookup hr))
  | none =>
      cases he : (extensions entries).lookup name with
      | some payload => exact .replaced (mem_extensions.mp (mem_of_lookup he))
      | none =>
          refine .kept fun entry hentry hsubject => ?_
          cases entry with
          | project own => exact hdrops (hsubject ▸ hentry)
          | rename source target =>
              exact lookup_eq_none.mp hr
                (List.mem_map.mpr ⟨(source, target), mem_renames.mpr hentry, hsubject⟩)
          | extend own payload =>
              exact lookup_eq_none.mp he
                (List.mem_map.mpr ⟨(own, payload), mem_extensions.mpr hentry, hsubject⟩)

/-- An item that a base column has become belongs to that column. -/
theorem Becomes.column? {out : ExpandedField α} (h : Becomes entries name out)
    (hname : name ∈ base.names) : out.column? base = some name := by
  cases h with
  | renamed _ => rfl
  | replaced _ => exact if_pos (Heading.has_eq_true.mpr hname)
  | kept _ => rfl

/-- A kept column is renamed to what was looked up. -/
theorem renaming?_carried (entries : List (FieldSpec α)) (name : String) :
    (carried entries name).renaming? = ((renames entries).lookup name).map (name, ·) := by
  unfold carried
  cases (renames entries).lookup name with
  | some target => rfl
  | none =>
      cases (extensions entries).lookup name with
      | some payload => rfl
      | none => rfl

/-- A kept column is replaced by what was looked up. -/
theorem extension?_carried (hcheck : checkAll base [] entries = .ok ())
    (hname : name ∈ base.names) :
    (carried entries name).extension? = ((replacing base entries).lookup name).map (name, ·) := by
  unfold carried
  cases hr : (renames entries).lookup name with
  | some target =>
      rw [lookup_replacing_of_renamed hcheck hr]
      rfl
  | none =>
      rw [lookup_replacing (Heading.has_eq_true.mpr hname)]
      cases (extensions entries).lookup name with
      | some payload => rfl
      | none => rfl

-- ==================================================== nothing is lost

/-- What is picked from an expanded list, part by part. -/
theorem filterMap_expanded {γ : Type} {pick : ExpandedField α → Option γ}
    {carry : String → Option γ}
    (hcarry : ∀ name ∈ kept base entries, pick (carried entries name) = carry name)
    (added : List (String × α)) :
    ((drops entries).map ExpandedField.drop ++ (kept base entries).map (carried entries) ++
        added.map fun e : String × α => ExpandedField.extend e.1 e.2).filterMap pick
      = (drops entries).filterMap (fun name => pick (.drop name)) ++
        (kept base entries).filterMap carry ++
        added.filterMap fun e : String × α => pick (.extend e.1 e.2) := by
  rw [List.filterMap_append, List.filterMap_append, List.filterMap_map, List.filterMap_map,
    List.filterMap_map]
  exact congrArg (_ ++ · ++ _) (List.filterMap_congr hcarry)

variable {out : List (ExpandedField α)}

/-- Each column of the base is accounted for once. -/
theorem columns_perm (hbase : base.names.Nodup) (h : expand base entries = .ok out) :
    (out.filterMap (ExpandedField.column? base)).Perm base.names := by
  obtain ⟨hcheck, rfl⟩ := expand_eq_ok h
  have hnodup : (drops entries).Nodup := (List.nodup_append.mp (nodup_claimed hcheck)).1
  have hfound : (base.names.filter fun name => (drops entries).contains name).Perm
      (drops entries) := by
    rw [List.perm_ext_iff_of_nodup (hbase.filter _) hnodup]
    intro name
    rw [List.mem_filter, List.contains_iff_mem]
    exact ⟨fun h => h.2, fun h => ⟨(mem_of_needed hcheck).1 name h, h⟩⟩
  have hkept : ∀ name ∈ kept base entries, (carried entries name).column? base = some name :=
    fun name hname => (carried_becomes hname).column? (List.mem_filter.mp hname).1
  have hadded : ((extensions entries).filter fun e => !base.has e.1).filterMap
      (fun e => (ExpandedField.extend e.1 e.2).column? base) = [] := by
    rw [List.filterMap_eq_nil_iff]
    intro e he
    exact if_neg (by simpa using (List.mem_filter.mp he).2)
  have hdrop (name : String) : (ExpandedField.drop name : ExpandedField α).column? base
      = some name := rfl
  rw [filterMap_expanded hkept, hadded, List.append_nil]
  simp only [hdrop, List.filterMap_some]
  exact (hfound.symm.append_right _).trans (List.filter_append_perm _ base.names)

/-- Each rename is put out once. -/
theorem renamings_perm (hbase : base.names.Nodup) (h : expand base entries = .ok out) :
    (out.filterMap ExpandedField.renaming?).Perm (renames entries) := by
  obtain ⟨hcheck, rfl⟩ := expand_eq_ok h
  obtain ⟨-, hclaimed, hapart⟩ := List.nodup_append.mp (nodup_claimed hcheck)
  have hkept : ∀ name ∈ (renames entries).map Prod.fst, name ∈ kept base entries := by
    intro name hname
    refine List.mem_filter.mpr ⟨(mem_of_needed hcheck).2 name hname, ?_⟩
    have hdrop : name ∉ drops entries := fun hdrop =>
      hapart name hdrop name (List.mem_append_left _ hname) rfl
    simpa using hdrop
  have hdrop (name : String) : (ExpandedField.drop name : ExpandedField α).renaming? = none := rfl
  have hextend (e : String × α) : (ExpandedField.extend e.1 e.2).renaming? = none := rfl
  rw [filterMap_expanded fun name _ => renaming?_carried entries name]
  simp only [hdrop, hextend, List.filterMap_none, List.nil_append, List.append_nil]
  exact filterMap_lookup_pairs (List.nodup_append.mp hclaimed).1 (hbase.filter _) hkept

/-- Each extension is put out once. -/
theorem extensions_perm (hbase : base.names.Nodup) (h : expand base entries = .ok out) :
    (out.filterMap ExpandedField.extension?).Perm (extensions entries) := by
  obtain ⟨hcheck, rfl⟩ := expand_eq_ok h
  have hdrop (name : String) : (ExpandedField.drop name : ExpandedField α).extension? = none := rfl
  have hextend (e : String × α) : (ExpandedField.extend e.1 e.2).extension? = some e := rfl
  rw [filterMap_expanded fun name hname =>
    extension?_carried hcheck (List.mem_filter.mp hname).1]
  simp only [hdrop, hextend, List.filterMap_none, List.nil_append, List.filterMap_some]
  have hreplaced := filterMap_lookup_pairs (replacing_claims hcheck).1 (hbase.filter _)
    fun name => mem_kept_of_replacing hcheck
  exact (hreplaced.append_right _).trans (List.filter_append_perm _ (extensions entries))

-- ==================================================== the whole list

/-- A list is refused for a needed column that the base lacks or for one
that two entries claim. Otherwise the drops come first, then what
becomes of each other column of the base, then the extensions that name
new columns: each column of the base is accounted for once, and no
rename and no extension is lost or doubled. -/
theorem expand_accounts_for_all (hbase : base.names.Nodup) (entries : List (FieldSpec α)) :
    ((∃ e, expand base entries = .error e) ↔
      (∃ entry ∈ entries, ∃ name ∈ entry.needs?, name ∉ base.names) ∨
      ∃ name ∈ base.names, 2 ≤ (entries.map subject).count name) ∧
    ∀ out, expand base entries = .ok out →
      (∃ carriedOver, List.Forall₂ (Becomes entries)
          (base.names.filter fun name => name ∉ drops entries) carriedOver ∧
        out = (drops entries).map ExpandedField.drop ++ carriedOver ++
          ((extensions entries).filter fun e => e.1 ∉ base.names).map fun e =>
            ExpandedField.extend e.1 e.2) ∧
      (out.filterMap (ExpandedField.column? base)).Perm base.names ∧
      (out.filterMap ExpandedField.renaming?).Perm (renames entries) ∧
      (out.filterMap ExpandedField.extension?).Perm (extensions entries) := by
  refine ⟨expand_fails_iff, fun out h => ⟨?_, columns_perm hbase h, renamings_perm hbase h,
    extensions_perm hbase h⟩⟩
  -- what the expansion calls kept and added are the columns neither dropped nor
  -- there before
  have hkept : (base.names.filter fun name => name ∉ drops entries) = kept base entries :=
    List.filter_congr fun name _ => by simp
  have hadded : ((extensions entries).filter fun e => e.1 ∉ base.names)
      = (extensions entries).filter fun e => !base.has e.1 :=
    List.filter_congr fun e _ => by simp [← Heading.has_eq_true]
  rw [hkept, hadded]
  refine ⟨(kept base entries).map (carried entries), ?_, (expand_eq_ok h).2⟩
  rw [List.forall₂_map_right_iff, List.forall₂_same]
  exact fun name hname => carried_becomes hname

/-- One column is renamed, one dropped and one replaced. -/
theorem expand_accounts_for_all_each_way :
    (Heading.names [⟨"a", .number⟩, ⟨"b", .text⟩, ⟨"c", .bool⟩]).Nodup ∧
    expand [⟨"a", .number⟩, ⟨"b", .text⟩, ⟨"c", .bool⟩]
        [.extend "d" 1, .rename "a" "x", .extend "c" 2, .project "b"]
      = .ok [.drop "b", .rename "a" "x", .extend "c" 2, .extend "d" 1] ∧
    ([ExpandedField.drop "b", .rename "a" "x", .extend "c" 2, .extend "d" 1].filterMap
      (ExpandedField.column? [⟨"a", .number⟩, ⟨"b", .text⟩, ⟨"c", .bool⟩])).Perm
      ["a", "b", "c"] := by
  have hexpand : expand [⟨"a", .number⟩, ⟨"b", .text⟩, ⟨"c", .bool⟩]
      [.extend "d" 1, .rename "a" "x", .extend "c" 2, .project "b"]
      = .ok [.drop "b", .rename "a" "x", .extend "c" 2, .extend "d" 1] := by decide
  have hbase : (Heading.names [⟨"a", .number⟩, ⟨"b", .text⟩, ⟨"c", .bool⟩]).Nodup := by decide
  exact ⟨hbase, hexpand, ((expand_accounts_for_all hbase _).2 _ hexpand).2.1⟩

end FieldSpec

end RelQuery
