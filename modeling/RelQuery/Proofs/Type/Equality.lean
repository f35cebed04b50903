/-
Equality of types is an equality where names are distinct.

`same` looks up each column of one heading in the other. It is
transitive as it stands. A type equals itself if no heading inside it
names a column twice, since a column is then found under its own name.
And equality is then symmetric: the names on the left are distinct, all
of them stand on the right, and the right has no more of them, so that
they are the names on the right.

All three go by one induction over types, in which the types of the
columns and the supertype are the smaller ones (`DataType.induction`).
-/
import RelQuery.Call.Signature
import RelQuery.Proofs.Type.Distinct
import Mathlib.Data.List.Nodup
import Mathlib.Data.List.Perm.Subperm

namespace RelQuery

-- ======================================================== induction

/-- What follows for a type from the types of its columns and from its
supertype holds of every type. -/
@[elab_as_elim]
theorem DataType.induction {P : DataType → Prop}
    (plain : ∀ t : DataType, t.heading? = none → P t)
    (tuple : ∀ h : Heading, (∀ c ∈ h, P c.type) → P (.tuple h))
    (relation : ∀ h : Heading, (∀ c ∈ h, P c.type) → P (.relation h))
    (user : ∀ u : UserType, (∀ c ∈ u.heading, P c.type) → (∀ s ∈ u.supertype, P s) → P (.user u))
    (t : DataType) : P t := by
  refine @DataType.rec P (fun u => (∀ c ∈ u.heading, P c.type) ∧ ∀ s ∈ u.supertype, P s)
    (fun c => P c.type) (fun h => ∀ c ∈ h, P c.type) (fun s => ∀ t ∈ s, P t)
    ?_ ?_ ?_ ?_ ?_ tuple relation (fun u hu => user u hu.1 hu.2) ?_ ?_ ?_ ?_ ?_ ?_ ?_ ?_
    (fun _ _ _ hh hs => ⟨hh, hs⟩) (fun _ _ ht => ht) (fun _ h => absurd h List.not_mem_nil)
    (fun _ _ hc hrest => List.forall_mem_cons.mpr ⟨hc, hrest⟩) nofun ?_ t
  case refine_14 =>
    rintro s hs _ ⟨⟩
    exact hs
  all_goals exact plain _ rfl

-- ========================================================= headings

namespace Heading

variable {h k : Heading}

theorem get?_name {name : String} {c : Column} (hc : h.get? name = some c) : c.name = name := by
  have hfound := List.find?_some hc
  exact beq_iff_eq.mp hfound

theorem get?_eq_none {name : String} : h.get? name = none ↔ name ∉ h.names := by
  simp [get?, names]

/-- With distinct names a column is found under its own. -/
theorem get?_eq_some (hh : h.names.Nodup) {c : Column} (hc : c ∈ h) :
    h.get? c.name = some c := by
  cases hget : h.get? c.name with
  | none =>
      have hmissing := List.find?_eq_none.mp hget c hc
      simp at hmissing
  | some d => rw [List.inj_on_of_nodup_map hh (List.mem_of_find?_eq_some hget) hc (get?_name hget)]

/-- Distinct names that all stand in a heading of the same length are
its names. -/
theorem names_perm (hh : h.names.Nodup) (hlength : h.length = k.length)
    (hsubset : h.names ⊆ k.names) : h.names.Perm k.names := by
  have hnames : k.names.length = h.names.length := by
    rw [names, names, List.length_map, List.length_map, hlength]
  exact (hh.subperm hsubset).perm_of_length_le (Nat.le_of_eq hnames)

end Heading

-- ========================================================= equality

namespace DataType

variable {a b c : DataType} {h k l : Heading} {u : UserType}

/-- A type without a heading is the same as itself alone. -/
theorem same_plain (ha : a.heading? = none) : a.same b = true ↔ b = a := by
  cases a with
  | tuple h | relation h | user u => cases ha
  | _ =>
      constructor
      · intro hsame
        cases b with
        | _ => first | rfl | cases hsame
      · rintro rfl
        rfl

/-- A tuple is the same as the tuples of the same heading. -/
theorem same_tuple : (tuple h).same b = true ↔ ∃ k, b = .tuple k ∧ sameHeading h k = true := by
  constructor
  · intro hsame
    cases b with
    | tuple k => exact ⟨k, rfl, hsame⟩
    | _ => cases hsame
  · rintro ⟨k, rfl, hsame⟩
    exact hsame

/-- A relation is the same as the relations of the same heading. -/
theorem same_relation :
    (relation h).same b = true ↔ ∃ k, b = .relation k ∧ sameHeading h k = true := by
  constructor
  · intro hsame
    cases b with
    | relation k => exact ⟨k, rfl, hsame⟩
    | _ => cases hsame
  · rintro ⟨k, rfl, hsame⟩
    exact hsame

/-- A user type is the same as one of its name, heading and supertype. -/
theorem same_user : (DataType.user u).same b = true ↔ ∃ v : UserType, b = .user v ∧
    u.name = v.name ∧ sameHeading u.heading v.heading = true ∧
      sameSuper u.supertype v.supertype = true := by
  obtain ⟨n, h, s⟩ := u
  constructor
  · intro hsame
    cases b with
    | user v =>
        obtain ⟨m, k, t⟩ := v
        obtain ⟨hfirst, hsuper⟩ := Bool.and_eq_true_iff.mp hsame
        obtain ⟨hname, hheading⟩ := Bool.and_eq_true_iff.mp hfirst
        exact ⟨_, rfl, beq_iff_eq.mp hname, hheading, hsuper⟩
    | _ => cases hsame
  · rintro ⟨⟨m, k, t⟩, rfl, hname, hheading, hsuper⟩
    have hfirst := Bool.and_eq_true_iff.mpr ⟨beq_iff_eq.mpr hname, hheading⟩
    exact Bool.and_eq_true_iff.mpr ⟨hfirst, hsuper⟩

/-- A heading lies within another if every column has a partner there. -/
theorem within_iff : within h k = true ↔
    ∀ c ∈ h, ∃ d, Heading.get? k c.name = some d ∧ c.type.same d.type = true := by
  induction h with
  | nil => simp [within]
  | cons c rest ih =>
      obtain ⟨name, t⟩ := c
      rw [within, Bool.and_eq_true, ih, List.forall_mem_cons]
      refine and_congr_left' ?_
      unfold Heading.get?
      cases k.find? (·.name == name) with
      | none => simp
      | some d => simp

/-- Headings are the same if they have as many columns and one lies within
the other. -/
theorem sameHeading_iff : sameHeading h k = true ↔ h.length = k.length ∧
    ∀ c ∈ h, ∃ d, Heading.get? k c.name = some d ∧ c.type.same d.type = true := by
  rw [sameHeading, Bool.and_eq_true, beq_iff_eq, within_iff]

theorem sameSuper_some {s : DataType} {t : Option DataType} :
    sameSuper (some s) t = true ↔ ∃ t', t = some t' ∧ s.same t' = true := by
  cases t <;> simp [sameSuper]

theorem sameSuper_none {t : Option DataType} : sameSuper none t = true ↔ t = none := by
  cases t <;> simp [sameSuper]

-- ===================================================== transitivity

/-- Headings compare transitively if the types of the first one's
columns do. -/
theorem sameHeading_trans
    (htypes : ∀ c ∈ h, ∀ {s t : DataType}, c.type.same s = true → s.same t = true →
      c.type.same t = true)
    (hk : sameHeading h k = true) (hl : sameHeading k l = true) : sameHeading h l = true := by
  rw [sameHeading_iff] at hk hl ⊢
  refine ⟨hk.1.trans hl.1, fun c hc => ?_⟩
  obtain ⟨d, hd, hsame⟩ := hk.2 c hc
  obtain ⟨e, he, hsame'⟩ := hl.2 d (List.mem_of_find?_eq_some hd)
  rw [Heading.get?_name hd] at he
  exact ⟨e, he, htypes c hc hsame hsame'⟩

/-- Supertypes that are the same as one are the same, if that holds of the
types. -/
theorem sameSuper_trans {s t r : Option DataType}
    (htypes : ∀ a ∈ s, ∀ {b c : DataType}, a.same b = true → b.same c = true → a.same c = true)
    (hst : sameSuper s t = true) (htr : sameSuper t r = true) : sameSuper s r = true := by
  cases s with
  | none =>
      rw [sameSuper_none.mp hst] at htr
      exact htr
  | some a =>
      obtain ⟨b, rfl, hab⟩ := sameSuper_some.mp hst
      obtain ⟨c, rfl, hbc⟩ := sameSuper_some.mp htr
      exact sameSuper_some.mpr ⟨c, rfl, htypes a rfl hab hbc⟩

/-- Types that are the same as one are the same. -/
theorem same_trans (hab : a.same b = true) (hbc : b.same c = true) : a.same c = true := by
  induction a using DataType.induction generalizing b c with
  | plain a ha =>
      rw [(same_plain ha).mp hab] at hbc
      exact hbc
  | tuple h ih =>
      obtain ⟨k, rfl, hk⟩ := same_tuple.mp hab
      obtain ⟨l, rfl, hl⟩ := same_tuple.mp hbc
      exact sameHeading_trans (fun c hc _ _ => ih c hc) hk hl
  | relation h ih =>
      obtain ⟨k, rfl, hk⟩ := same_relation.mp hab
      obtain ⟨l, rfl, hl⟩ := same_relation.mp hbc
      exact sameHeading_trans (fun c hc _ _ => ih c hc) hk hl
  | user u ih ihs =>
      obtain ⟨v, rfl, hname, hk, hsuper⟩ := same_user.mp hab
      obtain ⟨w, rfl, hname', hl, hsuper'⟩ := same_user.mp hbc
      exact same_user.mpr ⟨w, rfl, hname.trans hname',
        sameHeading_trans (fun c hc _ _ => ih c hc) hk hl,
        sameSuper_trans (fun s hs _ _ => ihs s hs) hsuper hsuper'⟩

-- ========================================= reflexivity and symmetry

/-- Columns have distinct names inside if each type has. -/
theorem columnsDistinct_iff :
    columnsDistinct h = true ↔ ∀ c ∈ h, c.type.namesDistinct = true := by
  induction h with
  | nil => simp [columnsDistinct]
  | cons c rest ih =>
      obtain ⟨name, t⟩ := c
      rw [columnsDistinct, Bool.and_eq_true, ih, List.forall_mem_cons]

theorem namesDistinct_tuple : (tuple h).namesDistinct = true ↔
    h.names.Nodup ∧ ∀ c ∈ h, c.type.namesDistinct = true :=
  Bool.and_eq_true_iff.trans (and_congr decide_eq_true_iff columnsDistinct_iff)

theorem namesDistinct_relation : (relation h).namesDistinct = true ↔
    h.names.Nodup ∧ ∀ c ∈ h, c.type.namesDistinct = true :=
  Bool.and_eq_true_iff.trans (and_congr decide_eq_true_iff columnsDistinct_iff)

theorem namesDistinct_user : (DataType.user u).namesDistinct = true ↔
    (Heading.names u.heading).Nodup ∧ (∀ c ∈ u.heading, c.type.namesDistinct = true) ∧
      ∀ s ∈ u.supertype, s.namesDistinct = true := by
  obtain ⟨n, h, s⟩ := u
  have hsuper : superDistinct s = true ↔ ∀ t ∈ s, t.namesDistinct = true := by
    cases s with
    | none => simp [superDistinct]
    | some t => simp [superDistinct]
  have hcolumns : (decide (Heading.names h).Nodup && columnsDistinct h) = true ↔ _ :=
    namesDistinct_tuple
  exact Bool.and_eq_true_iff.trans ((and_congr hcolumns hsuper).trans and_assoc)

/-- A heading of distinct names is the same as itself, if its types are. -/
theorem sameHeading_refl (hh : h.names.Nodup) (htypes : ∀ c ∈ h, c.type.same c.type = true) :
    sameHeading h h = true :=
  sameHeading_iff.mpr ⟨rfl, fun c hc => ⟨c, Heading.get?_eq_some hh hc, htypes c hc⟩⟩

/-- A supertype is the same as itself, if the type is. -/
theorem sameSuper_refl {s : Option DataType} (htypes : ∀ a ∈ s, a.same a = true) :
    sameSuper s s = true := by
  cases s with
  | none => rfl
  | some a => exact htypes a rfl

/-- A type equals itself. -/
theorem same_refl (ha : a.namesDistinct = true) : a.same a = true := by
  induction a using DataType.induction with
  | plain a hplain => exact (same_plain hplain).mpr rfl
  | tuple h ih =>
      obtain ⟨hnames, htypes⟩ := namesDistinct_tuple.mp ha
      exact sameHeading_refl hnames fun c hc => ih c hc (htypes c hc)
  | relation h ih =>
      obtain ⟨hnames, htypes⟩ := namesDistinct_relation.mp ha
      exact sameHeading_refl hnames fun c hc => ih c hc (htypes c hc)
  | user u ih ihs =>
      obtain ⟨hnames, htypes, hsuper⟩ := namesDistinct_user.mp ha
      exact same_user.mpr ⟨u, rfl, rfl,
        sameHeading_refl hnames fun c hc => ih c hc (htypes c hc),
        sameSuper_refl fun s hs => ihs s hs (hsuper s hs)⟩

/-- The columns on the right are found on the left, because there are
no others than those that were looked up. -/
theorem sameHeading_symm (hh : h.names.Nodup)
    (htypes : ∀ c ∈ h, ∀ {t : DataType}, c.type.same t = true → t.same c.type = true)
    (hk : sameHeading h k = true) : sameHeading k h = true := by
  obtain ⟨hlength, hwithin⟩ := sameHeading_iff.mp hk
  have hsubset : h.names ⊆ k.names := by
    intro name hname
    obtain ⟨c, hc, rfl⟩ := List.mem_map.mp hname
    obtain ⟨d, hd, -⟩ := hwithin c hc
    rw [← Heading.get?_name hd]
    exact List.mem_map_of_mem (List.mem_of_find?_eq_some hd)
  have hperm := Heading.names_perm hh hlength hsubset
  refine sameHeading_iff.mpr ⟨hlength.symm, fun d hd => ?_⟩
  obtain ⟨c, hc, hname⟩ := List.mem_map.mp (hperm.mem_iff.mpr (List.mem_map_of_mem hd))
  obtain ⟨d', hd', hsame⟩ := hwithin c hc
  -- the column found for `c` is `d`, whose name no other column has
  rw [hname, Heading.get?_eq_some (hperm.nodup_iff.mp hh) hd] at hd'
  cases hd'
  refine ⟨c, ?_, htypes c hc hsame⟩
  rw [← hname]
  exact Heading.get?_eq_some hh hc

/-- Supertypes are the same both ways, if the types are. -/
theorem sameSuper_symm {s t : Option DataType}
    (htypes : ∀ a ∈ s, ∀ {b : DataType}, a.same b = true → b.same a = true)
    (hst : sameSuper s t = true) : sameSuper t s = true := by
  cases s with
  | none =>
      rw [sameSuper_none.mp hst]
      rfl
  | some a =>
      obtain ⟨b, rfl, hab⟩ := sameSuper_some.mp hst
      exact htypes a rfl hab

/-- Equality is symmetric; the names on one side being distinct is
enough. -/
theorem same_symm (ha : a.namesDistinct = true) (hab : a.same b = true) : b.same a = true := by
  induction a using DataType.induction generalizing b with
  | plain a hplain =>
      rw [(same_plain hplain).mp hab]
      exact (same_plain hplain).mpr rfl
  | tuple h ih =>
      obtain ⟨hnames, htypes⟩ := namesDistinct_tuple.mp ha
      obtain ⟨k, rfl, hk⟩ := same_tuple.mp hab
      exact sameHeading_symm hnames (fun c hc _ => ih c hc (htypes c hc)) hk
  | relation h ih =>
      obtain ⟨hnames, htypes⟩ := namesDistinct_relation.mp ha
      obtain ⟨k, rfl, hk⟩ := same_relation.mp hab
      exact sameHeading_symm hnames (fun c hc _ => ih c hc (htypes c hc)) hk
  | user u ih ihs =>
      obtain ⟨hnames, htypes, hdistinct⟩ := namesDistinct_user.mp ha
      obtain ⟨v, rfl, hname, hk, hsuper⟩ := same_user.mp hab
      exact same_user.mpr ⟨u, rfl, hname.symm,
        sameHeading_symm hnames (fun c hc _ => ih c hc (htypes c hc)) hk,
        sameSuper_symm (fun s hs _ => ihs s hs (hdistinct s hs)) hsuper⟩

end DataType

-- ======================================================= signatures

namespace Signature

variable {s t r : Signature}

/-- No heading inside the type of an argument names a column twice. -/
structure ArgumentsDistinct (s : Signature) : Prop where
  args : ∀ t ∈ s.argTypes, t.namesDistinct = true
  variadic : ∀ t ∈ s.variadic, t.namesDistinct = true

/-- Types in a row that are the same as others are the same. -/
theorem sameTypes_trans {as bs cs : List DataType} (hab : sameTypes as bs = true)
    (hbc : sameTypes bs cs = true) : sameTypes as cs = true := by
  induction as generalizing bs cs with
  | nil =>
      cases bs with
      | nil => exact hbc
      | cons b bs => cases hab
  | cons a as ih =>
      cases bs with
      | nil => cases hab
      | cons b bs =>
          cases cs with
          | nil => cases hbc
          | cons c cs =>
              rw [sameTypes, Bool.and_eq_true] at hab hbc ⊢
              exact ⟨DataType.same_trans hab.1 hbc.1, ih hab.2 hbc.2⟩

/-- Types in a row are the same as themselves, if their names are distinct. -/
theorem sameTypes_refl {as : List DataType} (has : ∀ a ∈ as, a.namesDistinct = true) :
    sameTypes as as = true := by
  induction as with
  | nil => rfl
  | cons a as ih =>
      obtain ⟨ha, has⟩ := List.forall_mem_cons.mp has
      rw [sameTypes, Bool.and_eq_true]
      exact ⟨DataType.same_refl ha, ih has⟩

/-- Types in a row are the same both ways, if their names are distinct. -/
theorem sameTypes_symm {as bs : List DataType} (has : ∀ a ∈ as, a.namesDistinct = true)
    (hab : sameTypes as bs = true) : sameTypes bs as = true := by
  induction as generalizing bs with
  | nil =>
      cases bs with
      | nil => rfl
      | cons b bs => cases hab
  | cons a as ih =>
      obtain ⟨ha, has⟩ := List.forall_mem_cons.mp has
      cases bs with
      | nil => cases hab
      | cons b bs =>
          rw [sameTypes, Bool.and_eq_true] at hab ⊢
          exact ⟨DataType.same_symm ha hab.1, ih has hab.2⟩

/-- Signatures that take the same arguments as one take the same. -/
theorem sameArguments_trans (hst : s.sameArguments t = true) (htr : t.sameArguments r = true) :
    s.sameArguments r = true := by
  rw [sameArguments, Bool.and_eq_true] at hst htr ⊢
  exact ⟨DataType.sameSuper_trans (fun _ _ _ _ => DataType.same_trans) hst.1 htr.1,
    sameTypes_trans hst.2 htr.2⟩

theorem sameArguments_refl (hs : s.ArgumentsDistinct) : s.sameArguments s = true := by
  rw [sameArguments, Bool.and_eq_true]
  exact ⟨DataType.sameSuper_refl fun a ha => DataType.same_refl (hs.variadic a ha),
    sameTypes_refl hs.args⟩

theorem sameArguments_symm (hs : s.ArgumentsDistinct) (hst : s.sameArguments t = true) :
    t.sameArguments s = true := by
  rw [sameArguments, Bool.and_eq_true] at hst ⊢
  exact ⟨DataType.sameSuper_symm (fun a ha _ => DataType.same_symm (hs.variadic a ha)) hst.1,
    sameTypes_symm hs.args hst.2⟩

end Signature

end RelQuery
