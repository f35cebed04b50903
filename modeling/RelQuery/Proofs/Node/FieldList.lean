/-
Expanding a field list loses no computed field and doubles none.

An extension stands in the expanded list where the base has a column of
its name, and at the end otherwise. The check lets each column of the
base be claimed once, by a drop, a rename or an extension, so a base
column that is replaced is neither dropped nor renamed, and only one
extension replaces it. That the columns of the base are distinct is not
asked: a column that stands twice would put out the same name twice,
and such a list has no heading.
-/
import RelQuery.Node.FieldList
import RelQuery.Proofs.Type.Distinct
import Mathlib.Data.List.Nodup
import Mathlib.Data.List.Perm.Basic

namespace RelQuery

-- ==================================================== looking up keys

variable {β : Type}

/-- A key is not found if it is not there. -/
theorem lookup_eq_none {pairs : List (String × β)} {k : String} :
    pairs.lookup k = none ↔ k ∉ pairs.map Prod.fst := by
  rw [List.lookup_eq_none_iff, List.mem_map]
  constructor
  · rintro h ⟨p, hp, rfl⟩
    exact bne_iff_ne.mp (h p hp) rfl
  · intro h p hp
    exact bne_iff_ne.mpr fun he => h ⟨p, hp, he.symm⟩

/-- Looking up all keys gives the pairs again, as keys are distinct. -/
theorem filterMap_lookup_keys {pairs : List (String × β)} (h : (pairs.map Prod.fst).Nodup) :
    (pairs.map Prod.fst).filterMap (fun k => (pairs.lookup k).map (k, ·)) = pairs := by
  induction pairs with
  | nil => rfl
  | cons p rest ih =>
      obtain ⟨k, v⟩ := p
      rw [List.map_cons, List.nodup_cons] at h
      have hfirst : (List.lookup k ((k, v) :: rest)).map (k, ·) = some (k, v) := by
        rw [List.lookup_cons_self, Option.map_some]
      have hrest : (rest.map Prod.fst).filterMap
            (fun x => (List.lookup x ((k, v) :: rest)).map (x, ·))
          = (rest.map Prod.fst).filterMap fun x => (rest.lookup x).map (x, ·) := by
        apply List.filterMap_congr
        intro x hx
        have hne : x ≠ k := fun he => h.1 (he ▸ hx)
        rw [List.lookup_cons, beq_false_of_ne hne]
      rw [List.map_cons, List.filterMap_cons, hfirst, hrest, ih h.2]

/-- Looking up distinct keys, those of the pairs among them, finds
every pair once. -/
theorem filterMap_lookup_pairs {pairs : List (String × β)} {keys : List String}
    (hpairs : (pairs.map Prod.fst).Nodup) (hkeys : keys.Nodup)
    (hsub : ∀ k ∈ pairs.map Prod.fst, k ∈ keys) :
    (keys.filterMap fun k => (pairs.lookup k).map (k, ·)).Perm pairs := by
  let found := fun k : String => decide (k ∈ pairs.map Prod.fst)
  have hfound : (keys.filter found).Perm (pairs.map Prod.fst) := by
    rw [List.perm_ext_iff_of_nodup (hkeys.filter _) hpairs]
    intro k
    rw [List.mem_filter, decide_eq_true_eq]
    exact ⟨fun h => h.2, fun h => ⟨hsub k h, h⟩⟩
  have hmissing : (keys.filter fun k => !found k).filterMap
      (fun k => (pairs.lookup k).map (k, ·)) = [] := by
    rw [List.filterMap_eq_nil_iff]
    intro k hk
    rw [Option.map_eq_none_iff, lookup_eq_none]
    simpa [found] using (List.mem_filter.mp hk).2
  have hall := (List.filter_append_perm found keys).symm.filterMap
    fun k => (pairs.lookup k).map (k, ·)
  rw [List.filterMap_append, hmissing, List.append_nil] at hall
  have hvalues := hfound.filterMap fun k => (pairs.lookup k).map (k, ·)
  rw [filterMap_lookup_keys hpairs] at hvalues
  exact hall.trans hvalues

/-- And so every value. -/
theorem filterMap_lookup_perm {pairs : List (String × β)} {keys : List String}
    (hpairs : (pairs.map Prod.fst).Nodup) (hkeys : keys.Nodup)
    (hsub : ∀ k ∈ pairs.map Prod.fst, k ∈ keys) :
    (keys.filterMap fun k => pairs.lookup k).Perm (pairs.map Prod.snd) := by
  have hvalues := (filterMap_lookup_pairs hpairs hkeys hsub).map Prod.snd
  rw [List.map_filterMap] at hvalues
  simpa only [Option.map_map, Function.comp_def, Option.map_id'] using hvalues

-- ========================================================= claims

namespace FieldSpec

variable {α : Type}

/-- The columns of the base that entries claim. -/
def claims (base : Heading) (entries : List (FieldSpec α)) : List String :=
  (entries.map subject).filter base.has

/-- The check asks for each needed column, and lets every column be
claimed once. -/
theorem checkAll_eq_ok {base : Heading} {claimed : List String} {entries : List (FieldSpec α)} :
    checkAll base claimed entries = .ok () ↔
      (∀ entry ∈ entries, ∀ name ∈ entry.needs?, name ∈ base.names) ∧
      (claims base entries).Nodup ∧ ∀ name ∈ claims base entries, name ∉ claimed := by
  induction entries generalizing claimed with
  | nil => exact ⟨fun _ => ⟨nofun, List.nodup_nil, nofun⟩, fun _ => rfl⟩
  | cons entry rest ih =>
      -- the check looks for a column that is missing
      have hneeds : (entry.needs?.any fun name => !base.has name) = true ↔
          ¬∀ name ∈ entry.needs?, name ∈ base.names := by
        cases entry.needs? <;> simp [← Heading.has_eq_true]
      unfold checkAll
      rw [List.forall_mem_cons]
      split
      · rename_i hmissing
        exact ⟨nofun, fun h => absurd h.1.1 (hneeds.mp hmissing)⟩
      · rename_i hfound
        rw [hneeds, not_not] at hfound
        split
        -- the entry claims a column that exists, which nobody may have claimed
        · rename_i hhas
          have hcons : claims base (entry :: rest) = entry.subject :: claims base rest := by
            rw [claims, List.map_cons, List.filter_cons_of_pos hhas, claims]
          rw [hcons, List.nodup_cons, List.forall_mem_cons]
          split
          · rename_i htaken
            exact ⟨nofun, fun h => absurd (List.contains_iff_mem.mp htaken) h.2.2.1⟩
          -- claimed by this entry, the column counts as claimed for the rest
          · rename_i hfree
            rw [ih]
            simp only [List.mem_cons, not_or]
            rw [List.contains_iff_mem] at hfree
            constructor
            · rintro ⟨hrest, hnodup, hapart⟩
              refine ⟨⟨hfound, hrest⟩, ⟨fun hmem => (hapart _ hmem).1 rfl, hnodup⟩, hfree, ?_⟩
              exact fun name hname => (hapart name hname).2
            · rintro ⟨⟨-, hrest⟩, ⟨hnew, hnodup⟩, -, hapart⟩
              refine ⟨hrest, hnodup, fun name hname => ⟨?_, hapart name hname⟩⟩
              exact fun he => hnew (he ▸ hname)
        -- an entry that names no column of the base claims nothing
        · rename_i hhas
          have hcons : claims base (entry :: rest) = claims base rest := by
            rw [claims, List.map_cons, List.filter_cons_of_neg hhas, claims]
          rw [hcons, ih]
          exact ⟨fun h => ⟨⟨hfound, h.1⟩, h.2⟩, fun h => ⟨h.1.2, h.2⟩⟩

/-- A column is dropped if an entry says so. -/
theorem mem_drops {entries : List (FieldSpec α)} {name : String} :
    name ∈ drops entries ↔ .project name ∈ entries := by
  rw [drops, List.mem_filterMap]
  constructor
  · rintro ⟨entry, hentry, h⟩
    cases entry with
    | project own =>
        cases h
        exact hentry
    | rename source target => cases h
    | extend own payload => cases h
  · exact fun h => ⟨_, h, rfl⟩

/-- A column is renamed if an entry says so. -/
theorem mem_renames {entries : List (FieldSpec α)} {pair : String × String} :
    pair ∈ renames entries ↔ .rename pair.1 pair.2 ∈ entries := by
  rw [renames, List.mem_filterMap]
  constructor
  · rintro ⟨entry, hentry, h⟩
    cases entry with
    | project own => cases h
    | rename source target =>
        cases h
        exact hentry
    | extend own payload => cases h
  · exact fun h => ⟨_, h, rfl⟩

/-- A column is computed if an entry says so. -/
theorem mem_extensions {entries : List (FieldSpec α)} {pair : String × α} :
    pair ∈ extensions entries ↔ .extend pair.1 pair.2 ∈ entries := by
  rw [extensions, List.mem_filterMap]
  constructor
  · rintro ⟨entry, hentry, h⟩
    cases entry with
    | project own => cases h
    | rename source target => cases h
    | extend own payload =>
        cases h
        exact hentry
  · exact fun h => ⟨_, h, rfl⟩

/-- The subjects of a list, kind by kind. -/
theorem subjects_perm (entries : List (FieldSpec α)) :
    (drops entries ++ ((renames entries).map Prod.fst ++ (extensions entries).map Prod.fst)).Perm
      (entries.map subject) := by
  induction entries with
  | nil => exact .nil
  | cons entry rest ih =>
      cases entry with
      | project name => exact ih.cons name
      | rename source target =>
          exact (List.perm_middle).trans (ih.cons source)
      | extend name payload =>
          rw [← List.append_assoc] at ih ⊢
          exact List.perm_middle.trans (ih.cons name)

-- ======================================================== expansion

/-- The extensions that replace a column of the base. -/
def replacing (base : Heading) (entries : List (FieldSpec α)) : List (String × α) :=
  (extensions entries).filter fun e => base.has e.1

/-- A column of the base is replaced by what is computed under its name. -/
theorem lookup_replacing {base : Heading} {entries : List (FieldSpec α)} {name : String}
    (h : base.has name = true) :
    (replacing base entries).lookup name = (extensions entries).lookup name := by
  unfold replacing
  induction extensions entries with
  | nil => rfl
  | cons e rest ih =>
      obtain ⟨k, p⟩ := e
      by_cases hk : name = k
      · subst hk
        rw [List.filter_cons, if_pos h, List.lookup_cons_self, List.lookup_cons_self]
      · rw [List.lookup_cons, beq_false_of_ne hk, List.filter_cons]
        split
        · rw [List.lookup_cons, beq_false_of_ne hk, ih]
        · exact ih

/-- What a checked list drops or renames is there. -/
theorem mem_of_needed {base : Heading} {entries : List (FieldSpec α)}
    (h : checkAll base [] entries = .ok ()) :
    (∀ name ∈ drops entries, name ∈ base.names) ∧
      ∀ name ∈ (renames entries).map Prod.fst, name ∈ base.names := by
  obtain ⟨hneeds, -⟩ := checkAll_eq_ok.mp h
  refine ⟨fun name hname => hneeds _ (mem_drops.mp hname) name rfl, fun name hname => ?_⟩
  obtain ⟨pair, hpair, rfl⟩ := List.mem_map.mp hname
  exact hneeds _ (mem_renames.mp hpair) pair.1 rfl

/-- What a checked list drops, renames and replaces stands apart. -/
theorem nodup_claimed {base : Heading} {entries : List (FieldSpec α)}
    (h : checkAll base [] entries = .ok ()) :
    (drops entries ++ ((renames entries).map Prod.fst ++
      (replacing base entries).map Prod.fst)).Nodup := by
  obtain ⟨hdrops, hrenames⟩ := mem_of_needed h
  have hperm := (subjects_perm entries).filter base.has
  have hnames : ((extensions entries).map Prod.fst).filter base.has
      = (replacing base entries).map Prod.fst := List.filter_map
  rw [List.filter_append, List.filter_append, hnames,
    List.filter_eq_self.mpr fun name hname => Heading.has_eq_true.mpr (hdrops name hname),
    List.filter_eq_self.mpr fun name hname => Heading.has_eq_true.mpr (hrenames name hname)]
    at hperm
  exact hperm.nodup_iff.mpr (checkAll_eq_ok.mp h).2.1

/-- What replaces a column is claimed for that alone. -/
theorem replacing_claims {base : Heading} {entries : List (FieldSpec α)}
    (h : checkAll base [] entries = .ok ()) :
    ((replacing base entries).map Prod.fst).Nodup ∧
      ∀ name ∈ (replacing base entries).map Prod.fst,
        name ∉ drops entries ∧ name ∉ (renames entries).map Prod.fst := by
  have hclaimed := nodup_claimed h
  rw [List.nodup_append, List.nodup_append] at hclaimed
  obtain ⟨-, ⟨-, hself, hrenames⟩, hdrops⟩ := hclaimed
  refine ⟨hself, fun name hname => ⟨fun hd => ?_, fun hr => hrenames name hr name hname rfl⟩⟩
  exact hdrops name hd name (List.mem_append_right _ hname) rfl

/-- A renamed column is not replaced. -/
theorem lookup_replacing_of_renamed {base : Heading} {entries : List (FieldSpec α)}
    {name target : String} (h : checkAll base [] entries = .ok ())
    (hr : (renames entries).lookup name = some target) :
    (replacing base entries).lookup name = none := by
  refine lookup_eq_none.mpr fun hmem => ((replacing_claims h).2 name hmem).2 ?_
  by_contra hnot
  rw [lookup_eq_none.mpr hnot] at hr
  cases hr

/-- The columns of the base that are not dropped. -/
def kept (base : Heading) (entries : List (FieldSpec α)) : List String :=
  base.names.filter fun name => !(drops entries).contains name

/-- A replaced column is not dropped. -/
theorem mem_kept_of_replacing {base : Heading} {entries : List (FieldSpec α)} {name : String}
    (h : checkAll base [] entries = .ok ())
    (hname : name ∈ (replacing base entries).map Prod.fst) : name ∈ kept base entries := by
  obtain ⟨e, he, rfl⟩ := List.mem_map.mp hname
  have hhas := Heading.has_eq_true.mp (List.mem_filter.mp he).2
  refine List.mem_filter.mpr ⟨hhas, ?_⟩
  simpa using ((replacing_claims h).2 _ hname).1

/-- Expanding checks the entries first, and then gives what is dropped,
what is kept and what is new, in this order. -/
theorem expand_eq_ok {base : Heading} {entries : List (FieldSpec α)}
    {out : List (ExpandedField α)} (h : expand base entries = .ok out) :
    checkAll base [] entries = .ok () ∧
      out = (drops entries).map .drop ++ (kept base entries).map (carried entries) ++
        ((extensions entries).filter fun e => !base.has e.1).map fun e => .extend e.1 e.2 := by
  unfold expand at h
  cases hcheck : checkAll base [] entries with
  | error e =>
      rw [hcheck] at h
      cases h
  | ok u =>
      rw [hcheck] at h
      cases h
      exact ⟨rfl, rfl⟩

/-- The item of a base column that is not dropped. -/
def carriedItem (entries : List (FieldSpec Segment)) (name : String) : FieldItem :=
  match (renames entries).lookup name with
  | some target => .rename name target
  | none =>
    match (extensions entries).lookup name with
    | some segment => .extend segment
    | none => .project name

/-- What becomes of a kept column is one item of the list. -/
theorem ofExpanded?_carried (entries : List (FieldSpec Segment)) (name : String) :
    FieldItem.ofExpanded? (carried entries name) = some (carriedItem entries name) := by
  unfold carried carriedItem
  cases (renames entries).lookup name with
  | some target => rfl
  | none =>
      cases (extensions entries).lookup name with
      | some segment => rfl
      | none => rfl

/-- The items of a list are the columns that are kept and those that are
new. -/
theorem filterMap_ofExpanded? {base : Heading} {entries : List (FieldSpec Segment)}
    {out : List (ExpandedField Segment)} (h : expand base entries = .ok out) :
    out.filterMap FieldItem.ofExpanded? = (kept base entries).map (carriedItem entries) ++
      ((extensions entries).filter fun e => !base.has e.1).map fun e => .extend e.2 := by
  obtain ⟨-, rfl⟩ := expand_eq_ok h
  have hdrops : ((drops entries).map ExpandedField.drop).filterMap FieldItem.ofExpanded?
      = [] := by
    rw [List.filterMap_map, List.filterMap_eq_nil_iff]
    exact fun _ _ => rfl
  have hkept : ((kept base entries).map (carried entries)).filterMap FieldItem.ofExpanded?
      = (kept base entries).map (carriedItem entries) := by
    rw [List.filterMap_map, ← List.filterMap_eq_map]
    exact List.filterMap_congr fun name _ => ofExpanded?_carried entries name
  have hadded (es : List (String × Segment)) :
      (es.map fun e => ExpandedField.extend e.1 e.2).filterMap FieldItem.ofExpanded?
        = es.map fun e => .extend e.2 := by
    rw [List.filterMap_map, ← List.filterMap_eq_map]
    rfl
  rw [List.filterMap_append, List.filterMap_append, hdrops, hkept, hadded, List.nil_append]

/-- The computed fields of an expanded list are those of the list as
written, if no name is put out twice. -/
theorem segments_perm {base : Heading} {entries : List (FieldSpec Segment)}
    {out : List (ExpandedField Segment)} (h : expand base entries = .ok out)
    (hn : ((out.filterMap FieldItem.ofExpanded?).map FieldItem.output).Nodup) :
    ((out.filterMap FieldItem.ofExpanded?).filterMap FieldItem.segment?).Perm
      ((extensions entries).map Prod.snd) := by
  obtain ⟨hcheck, -⟩ := expand_eq_ok h
  rw [filterMap_ofExpanded? h] at hn ⊢
  -- no name is put out twice, so no column is carried twice
  have hkept : (kept base entries).Nodup := by
    rw [List.map_append, List.map_map] at hn
    exact List.Nodup.of_map _ (List.nodup_append.mp hn).1
  -- a column that is carried and computed gives the segment computed for it
  have hreplaced : ((kept base entries).map (carriedItem entries)).filterMap FieldItem.segment?
      = (kept base entries).filterMap fun name => (replacing base entries).lookup name := by
    rw [List.filterMap_map]
    apply List.filterMap_congr
    intro name hname
    have hhas : base.has name = true := Heading.has_eq_true.mpr (List.mem_filter.mp hname).1
    show (carriedItem entries name).segment? = _
    unfold carriedItem
    cases hr : (renames entries).lookup name with
    | some target => exact (lookup_replacing_of_renamed hcheck hr).symm
    | none =>
        rw [lookup_replacing hhas]
        cases (extensions entries).lookup name with
        | some segment => rfl
        | none => rfl
  have hfirst := filterMap_lookup_perm (replacing_claims hcheck).1 hkept
    fun name => mem_kept_of_replacing hcheck
  have hadded (es : List (String × Segment)) :
      (es.map fun e => FieldItem.extend e.2).filterMap FieldItem.segment? = es.map Prod.snd := by
    rw [List.filterMap_map, ← List.filterMap_eq_map]
    rfl
  -- the others are computed under new names; together they are all of them
  have hsplit := (List.filter_append_perm (fun e => base.has e.1) (extensions entries)).map Prod.snd
  rw [List.filterMap_append, hreplaced, hadded]
  rw [List.map_append] at hsplit
  exact (hfirst.append_right _).trans hsplit

end FieldSpec

-- ========================================================= strategy

/-- Without keys and computed fields a list projects or renames; with
them its columns are computed. -/
theorem Strategy.select_cases (items : List FieldItem) (ordered : Bool) (degree : Nat) :
    (∃ kind, select items ordered degree = .transform kind) ∨
    ordered = false ∧ items.filterMap FieldItem.segment? = [] ∧
      (select items ordered degree = .projection ∧ items.filterMap FieldItem.renaming? = [] ∨
        select items ordered degree = .rename ∧ items.filterMap FieldItem.renaming? ≠ [] ∧
          items.length = degree) := by
  -- the tests of the selection, in its order
  unfold select
  dsimp only
  split
  · exact .inl ⟨_, rfl⟩
  · split
    · exact .inl ⟨_, rfl⟩
    · rename_i hordered
      split
      · exact .inl ⟨_, rfl⟩
      · split
        · exact .inl ⟨_, rfl⟩
        · rename_i hcomputed
          rw [Bool.not_eq_true, Bool.not_eq_false', List.isEmpty_iff] at hcomputed
          have hplain := And.intro (eq_false_of_ne_true hordered) hcomputed
          split
          · rename_i hnone
            exact .inr ⟨hplain.1, hplain.2, .inl ⟨rfl, List.isEmpty_iff.mp hnone⟩⟩
          · rename_i hsome
            rw [List.isEmpty_iff] at hsome
            split
            · rename_i hall
              exact .inr ⟨hplain.1, hplain.2, .inr ⟨rfl, hsome, eq_of_beq hall⟩⟩
            · exact .inl ⟨_, rfl⟩

/-- An open segment in place of a kept column makes no other transform of
a list. -/
theorem Strategy.select_extend {left right : List FieldItem} {name : String} {segment : Segment}
    {ordered : Bool} {degree : Nat} {kind : TransformKind} (hkind : segment.kind = .rowwise)
    (hrenamings : (left ++ .project name :: right).filterMap FieldItem.renaming? = [])
    (h : select (left ++ .project name :: right) ordered degree = .transform kind) :
    select (left ++ .extend segment :: right) ordered degree = .transform kind := by
  have hlisted : (left ++ .project name :: right).filterMap FieldItem.segment?
      = left.filterMap FieldItem.segment? ++ right.filterMap FieldItem.segment? := by
    rw [List.filterMap_append, List.filterMap_cons]
    rfl
  have hcomputed : (left ++ .extend segment :: right).filterMap FieldItem.segment?
      = left.filterMap FieldItem.segment? ++ segment :: right.filterMap FieldItem.segment? := by
    rw [List.filterMap_append, List.filterMap_cons]
    rfl
  have hany (other : SegmentKind) (hother : (SegmentKind.rowwise == other) = false) :
      (left.filterMap FieldItem.segment? ++ segment :: right.filterMap FieldItem.segment?).any
          (·.kind == other)
        = (left.filterMap FieldItem.segment? ++ right.filterMap FieldItem.segment?).any
          (·.kind == other) := by
    rw [List.any_append, List.any_append, List.any_cons, hkind, hother, Bool.false_or]
  unfold select at h ⊢
  rw [hlisted, hrenamings] at h
  rw [hcomputed]
  dsimp only at h ⊢
  rw [hany .window rfl, hany .fold rfl]
  split at h
  · rw [if_pos ‹_›]
    exact h
  · rw [if_neg ‹_›]
    split at h
    · rw [if_pos ‹_›]
      exact h
    · rw [if_neg ‹_›]
      split at h
      · rw [if_pos ‹_›]
        exact h
      · rw [if_neg ‹_›]
        -- with nothing computed the list would be a projection
        rw [if_pos (by simp)]
        split at h
        · exact h
        · cases h

end RelQuery
