/-
Equal types have one key.

A key lists the columns of a heading by name, so it takes the columns of
two equal headings in one order. That is all there is to show: two
headings with distinct names are equal exactly if one is the other in
another order, up to the types of its columns (`sameHeading_iff_perm`),
and a list with distinct names is sorted in one way only
(`sortByName_eq_of_perm`). Equal types of columns have one key by
induction.

Together with the three laws of `Proofs.Type.Equality` this makes
equality an equivalence under which keys agree, for each of the kinds
that it runs through: types, headings, columns and user types.
-/
import RelQuery.Proofs.Type.Equality
import Mathlib.Data.List.Forall2

namespace RelQuery

open DataType

-- ============================================== the kinds compared

namespace Column

/-- No heading inside the column's type names a column twice. -/
def namesDistinct (c : Column) : Bool :=
  c.type.namesDistinct

/-- One name, and equal types. -/
def same (c d : Column) : Bool :=
  c.name == d.name && c.type.same d.type

/-- The name and the key of the type. -/
def key (c : Column) : List KeyPart :=
  .name c.name :: c.type.key

theorem same_iff {c d : Column} :
    c.same d = true ↔ c.name = d.name ∧ c.type.same d.type = true := by
  rw [same, Bool.and_eq_true, beq_iff_eq]

end Column

/-- The key of a heading: how many columns, then each by name. -/
def Heading.key (h : Heading) : List KeyPart :=
  headingKey (columnKeys h)

namespace UserType

/-- No heading inside the user type names a column twice. -/
def namesDistinct (u : UserType) : Bool :=
  (DataType.user u).namesDistinct

/-- One name, equal headings and equal supertypes. -/
def same (u v : UserType) : Bool :=
  u.name == v.name && sameHeading u.heading v.heading && sameSuper u.supertype v.supertype

/-- The name and the keys of the heading and the supertype. -/
def key (u : UserType) : List KeyPart :=
  .name u.name :: (Heading.key u.heading ++ superKey u.supertype)

/-- User types are the same as the types that they are. -/
theorem same_eq (u v : UserType) : u.same v = (DataType.user u).same (.user v) := by
  obtain ⟨n, h, s⟩ := u
  obtain ⟨m, k, t⟩ := v
  rfl

/-- The key of a user type is the one of the type, without its tag. -/
theorem key_eq (u : UserType) : (DataType.user u).key = .tag 7 :: u.key := by
  obtain ⟨n, h, s⟩ := u
  rfl

end UserType

-- ===================================================== permutations

namespace Heading

variable {h k l : Heading}

/-- Columns that are the same one by one have the same names. -/
theorem names_eq_of_forall₂ (hl : List.Forall₂ (fun c d => Column.same c d = true) h l) :
    names h = names l := by
  induction hl with
  | nil => rfl
  | cons hcd _ ih =>
      rw [names, names, List.map_cons, List.map_cons, (Column.same_iff.mp hcd).1]
      exact congrArg _ ih

/-- Column by column, a heading is found in any one that has the columns
on the other side. -/
theorem within_of_forall₂ (hk : k.names.Nodup)
    (hl : List.Forall₂ (fun c d => Column.same c d = true) h l) (hsubset : l ⊆ k) :
    within h k = true := by
  induction hl with
  | nil => rfl
  | @cons c d h l hcd _ ih =>
      obtain ⟨hname, htype⟩ := Column.same_iff.mp hcd
      obtain ⟨hd, hrest⟩ := List.cons_subset.mp hsubset
      rw [within_iff, List.forall_mem_cons]
      refine ⟨⟨d, ?_, htype⟩, within_iff.mp (ih hrest)⟩
      rw [hname]
      exact get?_eq_some hk hd

/-- The columns that a heading finds in another one. -/
def foundIn (h k : Heading) : Heading :=
  h.map fun c => (k.get? c.name).getD c

/-- The columns of a heading are the same as their partners in another. -/
theorem forall₂_foundIn (hwithin : within h k = true) :
    List.Forall₂ (fun c d => Column.same c d = true) h (h.foundIn k) := by
  refine List.forall₂_map_right_iff.mpr (List.forall₂_same.mpr fun c hc => ?_)
  obtain ⟨d, hd, hsame⟩ := within_iff.mp hwithin c hc
  rw [hd]
  exact Column.same_iff.mpr ⟨(get?_name hd).symm, hsame⟩

/-- Partners are columns of the other heading. -/
theorem foundIn_subset (hwithin : within h k = true) : h.foundIn k ⊆ k := by
  intro d hd
  obtain ⟨c, hc, rfl⟩ := List.mem_map.mp hd
  obtain ⟨e, he, -⟩ := within_iff.mp hwithin c hc
  rw [he]
  exact List.mem_of_find?_eq_some he

/-- The columns that an equal heading finds are all there are. -/
theorem foundIn_perm (hh : h.names.Nodup) (hsame : sameHeading h k = true) :
    (h.foundIn k).Perm k := by
  obtain ⟨hlength, hwithin⟩ := Bool.and_eq_true_iff.mp hsame
  have hnames : (h.foundIn k).names.Nodup := by
    rw [← names_eq_of_forall₂ (forall₂_foundIn hwithin)]
    exact hh
  have hsubperm : (h.foundIn k).Subperm k :=
    (List.Nodup.of_map _ hnames).subperm (foundIn_subset hwithin)
  have hcount : k.length = (h.foundIn k).length := by
    rw [foundIn, List.length_map, beq_iff_eq.mp hlength]
  exact hsubperm.perm_of_length_le (Nat.le_of_eq hcount)

/-- Headings are equal exactly if the columns of one are those of the
other in some order, up to equal types. -/
theorem sameHeading_iff_perm (hh : h.names.Nodup) (hk : k.names.Nodup) :
    sameHeading h k = true ↔
      ∃ l : Heading, l.Perm k ∧ List.Forall₂ (fun c d => Column.same c d = true) h l := by
  constructor
  · intro hsame
    have hwithin := (Bool.and_eq_true_iff.mp hsame).2
    exact ⟨h.foundIn k, foundIn_perm hh hsame, forall₂_foundIn hwithin⟩
  · rintro ⟨l, hperm, hl⟩
    refine Bool.and_eq_true_iff.mpr ⟨?_, within_of_forall₂ hk hl hperm.subset⟩
    rw [beq_iff_eq, hl.length_eq, hperm.length_eq]

end Heading

-- ============================================================= keys

namespace DataType

theorem columnKeys_eq_map (h : Heading) : columnKeys h = h.map fun c => (c.name, c.type.key) := by
  induction h with
  | nil => rfl
  | cons c rest ih =>
      obtain ⟨name, t⟩ := c
      rw [columnKeys, ih, List.map_cons]

/-- Where names are distinct, there is one way to sort by them. -/
theorem sortByName_eq_of_perm {xs ys : List (String × List KeyPart)} (hperm : xs.Perm ys)
    (hnames : (xs.map Prod.fst).Nodup) : sortByName xs = sortByName ys := by
  have hsorted (zs : List (String × List KeyPart)) :
      (sortByName zs).Pairwise fun a b => a.1 ≤ b.1 := by
    have htrans (a b c : String × List KeyPart) (hab : decide (a.1 ≤ b.1) = true)
        (hbc : decide (b.1 ≤ c.1) = true) : decide (a.1 ≤ c.1) = true := by
      simp only [decide_eq_true_eq] at hab hbc ⊢
      exact String.le_trans hab hbc
    have htotal (a b : String × List KeyPart) :
        (decide (a.1 ≤ b.1) || decide (b.1 ≤ a.1)) = true := by
      simpa using String.le_total a.1 b.1
    exact (List.pairwise_mergeSort htrans htotal zs).imp of_decide_eq_true
  have hxs : (sortByName xs).Perm xs := List.mergeSort_perm _ _
  have hys : (sortByName ys).Perm ys := List.mergeSort_perm _ _
  refine List.Perm.eq_of_pairwise ?_ (hsorted xs) (hsorted ys) ((hxs.trans hperm).trans hys.symm)
  intro a b ha hb hab hba
  have ha := hxs.mem_iff.mp ha
  have hb := hperm.mem_iff.mpr (hys.mem_iff.mp hb)
  exact List.inj_on_of_nodup_map hnames ha hb (String.le_antisymm hab hba)

variable {a b : DataType} {h k : Heading} {u v : UserType}

/-- Equal headings have one key if the equal types of their columns do. -/
theorem headingKey_eq_of_same (hh : h.names.Nodup)
    (htypes : ∀ c ∈ h, ∀ {t : DataType}, c.type.same t = true → c.type.key = t.key)
    (hsame : sameHeading h k = true) : h.key = k.key := by
  have hfound := Heading.forall₂_foundIn (Bool.and_eq_true_iff.mp hsame).2
  have hkeys : columnKeys h = columnKeys (h.foundIn k) := by
    rw [columnKeys_eq_map, columnKeys_eq_map, Heading.foundIn, List.map_map]
    refine List.map_congr_left fun c hc => ?_
    have hc' : Column.same c ((Heading.get? k c.name).getD c) = true :=
      List.forall₂_same.mp (List.forall₂_map_right_iff.mp hfound) c hc
    obtain ⟨hname, htype⟩ := Column.same_iff.mp hc'
    exact Prod.ext hname (htypes c hc htype)
  have hperm : (columnKeys h).Perm (columnKeys k) := by
    rw [hkeys, columnKeys_eq_map, columnKeys_eq_map]
    exact (Heading.foundIn_perm hh hsame).map _
  have hnames : ((columnKeys h).map Prod.fst).Nodup := by
    rw [columnKeys_eq_map, List.map_map]
    exact hh
  rw [Heading.key, Heading.key, headingKey, headingKey, hperm.length_eq,
    sortByName_eq_of_perm hperm hnames]

/-- Equal types have one key. -/
theorem key_eq_of_same (ha : a.namesDistinct = true) (hab : a.same b = true) : a.key = b.key := by
  induction a using DataType.induction generalizing b with
  | plain a hplain => rw [(same_plain hplain).mp hab]
  -- headings that are the same have the same columns under each name, and the
  -- key sorts them
  | tuple h ih =>
      obtain ⟨hnames, htypes⟩ := namesDistinct_tuple.mp ha
      obtain ⟨k, rfl, hk⟩ := same_tuple.mp hab
      have hheading := headingKey_eq_of_same hnames (fun c hc _ => ih c hc (htypes c hc)) hk
      exact congrArg (.tag 5 :: ·) hheading
  | relation h ih =>
      obtain ⟨hnames, htypes⟩ := namesDistinct_relation.mp ha
      obtain ⟨k, rfl, hk⟩ := same_relation.mp hab
      have hheading := headingKey_eq_of_same hnames (fun c hc _ => ih c hc (htypes c hc)) hk
      exact congrArg (.tag 6 :: ·) hheading
  | user u ih ihs =>
      obtain ⟨hnames, htypes, hdistinct⟩ := namesDistinct_user.mp ha
      obtain ⟨v, rfl, hname, hk, hsuper⟩ := same_user.mp hab
      have hheading := headingKey_eq_of_same hnames (fun c hc _ => ih c hc (htypes c hc)) hk
      -- and so for the supertype, if there is one
      have hparent : superKey u.supertype = superKey v.supertype := by
        cases hu : u.supertype with
        | none =>
            rw [hu] at hsuper
            rw [sameSuper_none.mp hsuper]
        | some s =>
            rw [hu] at hsuper
            obtain ⟨t, ht, hst⟩ := sameSuper_some.mp hsuper
            rw [ht, superKey, superKey, ihs s hu (hdistinct s hu) hst]
      rw [UserType.key_eq, UserType.key_eq, UserType.key, UserType.key, hname, hheading, hparent]

end DataType

-- ========================================================== the laws

/-- A comparison is an equality on the values with distinct names, and
gives equal ones the same key. -/
structure IsEquality {α : Type} (distinct : α → Bool) (same : α → α → Bool)
    (key : α → List KeyPart) : Prop where
  refl : ∀ {a}, distinct a = true → same a a = true
  symm : ∀ {a b}, distinct a = true → distinct b = true → same a b = true → same b a = true
  trans : ∀ {a b c}, distinct a = true → distinct b = true → distinct c = true →
    same a b = true → same b c = true → same a c = true
  key : ∀ {a b}, distinct a = true → distinct b = true → same a b = true → key a = key b

/-- Values that compare as some others do, and have a key no finer than
theirs, compare as lawfully. -/
theorem IsEquality.comap {α β : Type} {distinct : β → Bool} {same : β → β → Bool}
    {key : β → List KeyPart} (h : IsEquality distinct same key) (f : α → β)
    {same' : α → α → Bool} {key' : α → List KeyPart}
    (hsame : ∀ a b, same' a b = same (f a) (f b))
    (hkey : ∀ a b, key (f a) = key (f b) → key' a = key' b) :
    IsEquality (fun a => distinct (f a)) same' key' where
  refl ha := by
    rw [hsame]
    exact h.refl ha
  symm ha hb hab := by
    rw [hsame] at hab ⊢
    exact h.symm ha hb hab
  trans ha hb hc hab hbc := by
    rw [hsame] at hab hbc ⊢
    exact h.trans ha hb hc hab hbc
  key ha hb hab := by
    rw [hsame] at hab
    exact hkey _ _ (h.key ha hb hab)

namespace DataType

theorem isEquality_types : IsEquality namesDistinct same key where
  refl := same_refl
  symm ha _ := same_symm ha
  trans _ _ _ := same_trans
  key ha _ := key_eq_of_same ha

/-- Headings compare and are filed as their tuples. -/
theorem isEquality_headings : IsEquality Heading.namesDistinct sameHeading Heading.key :=
  isEquality_types.comap tuple (fun _ _ => rfl) fun _ _ hkey => (List.cons.inj hkey).2

/-- User types are compared by an equality that their keys decide. -/
theorem isEquality_userTypes : IsEquality UserType.namesDistinct UserType.same UserType.key := by
  refine isEquality_types.comap user UserType.same_eq fun u v hkey => ?_
  rw [UserType.key_eq, UserType.key_eq] at hkey
  exact (List.cons.inj hkey).2

/-- Columns are compared by an equality that their keys decide. -/
theorem isEquality_columns : IsEquality Column.namesDistinct Column.same Column.key where
  refl hc := Column.same_iff.mpr ⟨rfl, same_refl hc⟩
  symm hc _ hcd := by
    obtain ⟨hname, htype⟩ := Column.same_iff.mp hcd
    exact Column.same_iff.mpr ⟨hname.symm, same_symm hc htype⟩
  trans _ _ _ hcd hde := by
    obtain ⟨hname, htype⟩ := Column.same_iff.mp hcd
    obtain ⟨hname', htype'⟩ := Column.same_iff.mp hde
    exact Column.same_iff.mpr ⟨hname.trans hname', same_trans htype htype'⟩
  key hc _ hcd := by
    obtain ⟨hname, htype⟩ := Column.same_iff.mp hcd
    rw [Column.key, Column.key, hname, key_eq_of_same hc htype]

/-- Equality up to the order of columns is an equality, on types and on
all that they are made of, as long as no heading inside names a column
twice; equal ones are filed under one key. Headings are equal exactly if
one has the columns of the other in some order, up to equal types. -/
theorem equality_is_lawful :
    IsEquality namesDistinct same key ∧
    IsEquality Heading.namesDistinct sameHeading Heading.key ∧
    IsEquality Column.namesDistinct Column.same Column.key ∧
    IsEquality UserType.namesDistinct UserType.same UserType.key ∧
    ∀ h k : Heading, h.namesDistinct = true → k.namesDistinct = true →
      (sameHeading h k = true ↔
        ∃ l : Heading, l.Perm k ∧ List.Forall₂ (fun c d => Column.same c d = true) h l) := by
  refine ⟨isEquality_types, isEquality_headings, isEquality_columns, isEquality_userTypes,
    fun h k hh hk => ?_⟩
  have hnames {h : Heading} (hh : h.namesDistinct = true) : h.names.Nodup :=
    of_decide_eq_true (Bool.and_eq_true_iff.mp hh).1
  exact Heading.sameHeading_iff_perm (hnames hh) (hnames hk)

/-- Two headings in another order, with a column whose supertype lists
its own columns in another order as well. -/
theorem equality_is_lawful_reordered :
    let pair : Heading := [⟨"x", .number⟩, ⟨"y", .text⟩]
    let made (h : Heading) : DataType := .user ⟨"t", h, some (.user ⟨"s", h.reverse, none⟩)⟩
    let left : Heading := [⟨"b", .bool⟩, ⟨"a", made pair⟩]
    let right : Heading := [⟨"a", made pair.reverse⟩, ⟨"b", .bool⟩]
    left.namesDistinct = true ∧ right.namesDistinct = true ∧ left ≠ right ∧
      sameHeading left right = true ∧ sameHeading right left = true ∧ left.key = right.key := by
  intro pair made left right
  obtain ⟨-, hheadings, -, -, hperm⟩ := equality_is_lawful
  have hleft : left.namesDistinct = true := by decide +kernel
  have hright : right.namesDistinct = true := by decide +kernel
  have hsame : sameHeading left right = true := by
    refine (hperm left right hleft hright).mpr ⟨right.reverse, List.reverse_perm right, ?_⟩
    exact .cons (by decide +kernel) (.cons (by decide +kernel) .nil)
  refine ⟨hleft, hright, fun h => ?_, hsame, hheadings.symm hleft hright hsame,
    hheadings.key hleft hright hsame⟩
  have hname := congrArg (fun k => Heading.names k) h
  exact absurd hname (by decide +kernel)

end DataType

end RelQuery
