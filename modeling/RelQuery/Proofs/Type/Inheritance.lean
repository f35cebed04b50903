/-
Types that can stand in for their supertypes.

A type holds the types of its columns and its supertype, and those hold
others (`DataType.parts`). Two things are asked of each of them
(`IsFormed`): its heading names no column twice, and if it has a
supertype then that is a user type whose columns it begins with. A type
is coherent if all its parts are so formed.

Columns are copied when a type is defined, and types are then copied
into headings and signatures. What makes coherence last is that every
part of a coherent type is coherent and that headings are made column by
column, each name once. It is what a subtype needs to be of use: all
columns of a supertype are found in it, however long the chain between
them (`IsCoherent.get?_of_isSubtypeOf`).
-/
import RelQuery.Proofs.Type.Equality
import RelQuery.Proofs.Type.Standard

namespace RelQuery

-- ============================================================ parts

namespace DataType

mutual

/-- The type, and all types of columns and supertypes inside it. -/
def parts : DataType → List DataType
  | .tuple h => .tuple h :: columnParts h
  | .relation h => .relation h :: columnParts h
  | .user ⟨n, h, s⟩ => .user ⟨n, h, s⟩ :: (columnParts h ++ superParts s)
  | t => [t]

/-- The types inside a supertype, itself included. -/
def superParts : Option DataType → List DataType
  | none => []
  | some t => t.parts

/-- The types inside the types of columns, those included. -/
def columnParts : List Column → List DataType
  | [] => []
  | ⟨_, t⟩ :: rest => t.parts ++ columnParts rest

end

variable {t u v : DataType} {h : Heading}

/-- The parts of columns are those of their types. -/
theorem mem_columnParts : t ∈ columnParts h ↔ ∃ c ∈ h, t ∈ c.type.parts := by
  induction h with
  | nil => simp [columnParts]
  | cons c rest ih =>
      obtain ⟨name, type⟩ := c
      simp [columnParts, ih]

/-- A type without a heading has no other part than itself. -/
theorem mem_parts_plain (ht : t.heading? = none) : u ∈ t.parts ↔ u = t := by
  cases t with
  | tuple h | relation h | user u => cases ht
  | _ => exact List.mem_singleton

theorem mem_parts_tuple : u ∈ (tuple h).parts ↔ u = .tuple h ∨ ∃ c ∈ h, u ∈ c.type.parts := by
  rw [parts, List.mem_cons, mem_columnParts]

theorem mem_parts_relation :
    u ∈ (relation h).parts ↔ u = .relation h ∨ ∃ c ∈ h, u ∈ c.type.parts := by
  rw [parts, List.mem_cons, mem_columnParts]

theorem mem_parts_user {user : UserType} : u ∈ (DataType.user user).parts ↔
    u = .user user ∨ (∃ c ∈ user.heading, u ∈ c.type.parts) ∨
      ∃ s ∈ user.supertype, u ∈ s.parts := by
  obtain ⟨name, h, s⟩ := user
  rw [parts, List.mem_cons, List.mem_append, mem_columnParts]
  cases s with
  | none => simp [superParts]
  | some s => simp [superParts]

/-- A type is a part of itself. -/
theorem mem_parts_self : t ∈ t.parts := by
  cases t with
  | user u =>
      obtain ⟨name, h, s⟩ := u
      exact List.mem_cons_self
  | _ => exact List.mem_cons_self

/-- What is inside a part is inside the type. -/
theorem mem_parts_trans (hu : u ∈ t.parts) (hv : v ∈ u.parts) : v ∈ t.parts := by
  induction t using DataType.induction with
  | plain t ht =>
      rw [(mem_parts_plain ht).mp hu] at hv
      exact hv
  | tuple h ih =>
      rcases mem_parts_tuple.mp hu with rfl | ⟨c, hc, hu⟩
      · exact hv
      · exact mem_parts_tuple.mpr (.inr ⟨c, hc, ih c hc hu⟩)
  | relation h ih =>
      rcases mem_parts_relation.mp hu with rfl | ⟨c, hc, hu⟩
      · exact hv
      · exact mem_parts_relation.mpr (.inr ⟨c, hc, ih c hc hu⟩)
  | user user ih ihs =>
      rcases mem_parts_user.mp hu with rfl | ⟨c, hc, hu⟩ | ⟨s, hs, hu⟩
      · exact hv
      · exact mem_parts_user.mpr (.inr (.inl ⟨c, hc, ih c hc hu⟩))
      · exact mem_parts_user.mpr (.inr (.inr ⟨s, hs, ihs s hs hu⟩))

end DataType

-- ======================================================== coherence

/-- A supertype is a user type, and its columns come first, the same
ones in the same order. -/
def UserType.Inherits (user : UserType) : Prop :=
  ∀ s ∈ user.supertype, ∃ super : UserType, s = .user super ∧ super.heading <+: user.heading

namespace DataType

variable {t u : DataType} {h : Heading}

/-- The heading names no column twice, and a user type begins with the
columns that it inherits. -/
def IsFormed : DataType → Prop
  | .tuple h | .relation h => (Heading.names h).Nodup
  | .user u => (Heading.names u.heading).Nodup ∧ u.Inherits
  | _ => True

/-- All types inside are well formed. -/
def IsCoherent (t : DataType) : Prop :=
  ∀ u ∈ t.parts, u.IsFormed

theorem IsCoherent.part (ht : t.IsCoherent) (hu : u ∈ t.parts) : u.IsCoherent :=
  fun v hv => ht v (mem_parts_trans hu hv)

/-- A type without a heading is coherent. -/
theorem isCoherent_plain (ht : t.heading? = none) : t.IsCoherent := by
  intro u hu
  rw [(mem_parts_plain ht).mp hu]
  cases t with
  | tuple h | relation h | user u => cases ht
  | _ => trivial

end DataType

/-- The names are distinct, and the types of all columns are coherent. -/
structure Heading.IsCoherent (h : Heading) : Prop where
  names : h.names.Nodup
  types : ∀ c ∈ h, c.type.IsCoherent

namespace DataType

variable {t : DataType} {h : Heading}

/-- What is made of the columns of a heading is coherent if the heading
is. -/
theorem isCoherent_over (hformed : t.IsFormed ↔ h.names.Nodup)
    (hparts : ∀ {u}, u ∈ t.parts ↔ u = t ∨ ∃ c ∈ h, u ∈ c.type.parts) :
    t.IsCoherent ↔ h.IsCoherent := by
  constructor
  · intro ht
    refine ⟨hformed.mp (ht _ mem_parts_self), fun c hc => ht.part (hparts.mpr (.inr ⟨c, hc, ?_⟩))⟩
    exact mem_parts_self
  · intro hh u hu
    rcases hparts.mp hu with rfl | ⟨c, hc, hu⟩
    · exact hformed.mpr hh.names
    · exact hh.types c hc u hu

/-- A tuple is coherent if its heading is. -/
theorem isCoherent_tuple : (tuple h).IsCoherent ↔ h.IsCoherent :=
  isCoherent_over .rfl mem_parts_tuple

/-- A relation is coherent if its heading is. -/
theorem isCoherent_relation : (relation h).IsCoherent ↔ h.IsCoherent :=
  isCoherent_over .rfl mem_parts_relation

/-- A user type is coherent if its heading and its supertype are, and it
inherits. -/
theorem isCoherent_user {user : UserType} : (DataType.user user).IsCoherent ↔
    Heading.IsCoherent user.heading ∧ user.Inherits ∧ ∀ s ∈ user.supertype, s.IsCoherent := by
  constructor
  · intro ht
    obtain ⟨hnames, hinherits⟩ := ht _ mem_parts_self
    refine ⟨⟨hnames, fun c hc => ht.part ?_⟩, hinherits, fun s hs => ht.part ?_⟩
    · exact mem_parts_user.mpr (.inr (.inl ⟨c, hc, mem_parts_self⟩))
    · exact mem_parts_user.mpr (.inr (.inr ⟨s, hs, mem_parts_self⟩))
  · rintro ⟨hh, hinherits, hsuper⟩ u hu
    rcases mem_parts_user.mp hu with rfl | ⟨c, hc, hu⟩ | ⟨s, hs, hu⟩
    · exact ⟨hh.names, hinherits⟩
    · exact hh.types c hc u hu
    · exact hsuper s hs u hu

/-- The names in a coherent type are distinct. -/
theorem IsCoherent.namesDistinct (ht : t.IsCoherent) : t.namesDistinct = true := by
  induction t using DataType.induction with
  | plain t hplain =>
      cases t with
      | tuple h | relation h | user u => cases hplain
      | _ => rfl
  | tuple h ih =>
      obtain ⟨hnames, htypes⟩ := isCoherent_tuple.mp ht
      exact namesDistinct_tuple.mpr ⟨hnames, fun c hc => ih c hc (htypes c hc)⟩
  | relation h ih =>
      obtain ⟨hnames, htypes⟩ := isCoherent_relation.mp ht
      exact namesDistinct_relation.mpr ⟨hnames, fun c hc => ih c hc (htypes c hc)⟩
  | user u ih ihs =>
      obtain ⟨⟨hnames, htypes⟩, -, hsuper⟩ := isCoherent_user.mp ht
      exact namesDistinct_user.mpr
        ⟨hnames, fun c hc => ih c hc (htypes c hc), fun s hs => ihs s hs (hsuper s hs)⟩

end DataType

-- ========================================================= subtypes

/-- A column of a heading is found in any that begins with it. -/
theorem Heading.get?_of_isPrefix {h k : Heading} (hk : h <+: k) {name : String} {c : Column}
    (hc : h.get? name = some c) : k.get? name = some c := by
  obtain ⟨rest, rfl⟩ := hk
  unfold Heading.get? at hc ⊢
  rw [List.find?_append, hc]
  rfl

/-- Every column of a supertype is found in the subtype, with an equal
type. -/
theorem DataType.IsCoherent.get?_of_isSubtypeOf {declared actual : DataType}
    (hactual : actual.IsCoherent) (h : isSubtypeOf declared actual = true) :
    ∀ c ∈ declared.heading?.getD [], ∃ d, Heading.get? (actual.heading?.getD []) c.name = some d ∧
      c.type.same d.type = true := by
  induction actual using DataType.induction with
  | plain t ht => cases t <;> first | cases h | cases ht
  | tuple k | relation k => cases h
  | user user _ ihs =>
      obtain ⟨-, hinherits, hcoherent⟩ := isCoherent_user.mp hactual
      obtain ⟨name, heading, supertype⟩ := user
      cases supertype with
      | none => cases h
      | some parent =>
          obtain ⟨super, rfl, hprefix⟩ := hinherits parent rfl
          have hparent := hcoherent _ rfl
          rw [isSubtypeOf, Bool.or_eq_true] at h
          intro c hc
          -- one step up, the columns are found in the supertype; it comes first
          have hfound : ∃ d, Heading.get? super.heading c.name = some d ∧
              c.type.same d.type = true := by
            rcases h with hsame | hsub
            · have hequal := same_symm hparent.namesDistinct hsame
              obtain ⟨other, rfl, -⟩ := same_user.mp hsame
              obtain ⟨_, ⟨⟩, -, hheading, -⟩ := same_user.mp hequal
              exact (sameHeading_iff.mp hheading).2 c hc
            · exact ihs _ rfl hparent hsub c hc
          obtain ⟨d, hd, hsame⟩ := hfound
          exact ⟨d, Heading.get?_of_isPrefix hprefix hd, hsame⟩

-- ========================================================= headings

/-- A column of a coherent type may be pushed. -/
theorem Heading.IsCoherent.push {h k : Heading} {c : Column} (hh : h.IsCoherent)
    (hc : c.type.IsCoherent) (hk : h.push c = .ok k) : k.IsCoherent := by
  refine ⟨nodup_names_push hk hh.names, ?_⟩
  obtain ⟨-, rfl⟩ := push_eq_ok.mp hk
  exact List.forall_mem_append.mpr ⟨hh.types, List.forall_mem_singleton.mpr hc⟩

theorem Heading.IsCoherent.filter {h : Heading} (p : Column → Bool) (hh : h.IsCoherent) :
    IsCoherent (h.filter p) where
  names := hh.names.sublist (List.filter_sublist.map _)
  types := fun c hc => hh.types c (List.mem_filter.mp hc).1

/-- Headings are made column by column and name each column once, so
coherence is a standard that what is made of coherent types meets. -/
def Standard.coherent : Standard where
  Allows := DataType.IsCoherent
  AllowsHeading := Heading.IsCoherent
  AllowsTime := fun _ => True
  plain h _ := DataType.isCoherent_plain h
  tuple := DataType.isCoherent_tuple
  relation := DataType.isCoherent_relation
  user h := (DataType.isCoherent_user.mp h).1
  types := Heading.IsCoherent.types
  nil := ⟨List.nodup_nil, fun _ h => absurd h List.not_mem_nil⟩
  push := Heading.IsCoherent.push
  filter := Heading.IsCoherent.filter

-- ========================================================== symbols

namespace Signature

variable {s : Signature}

/-- The types in a signature. -/
def types (s : Signature) : List DataType :=
  s.returns :: (s.argTypes ++ s.variadic.toList)

/-- All types in a signature are coherent. -/
def IsCoherent (s : Signature) : Prop :=
  ∀ t ∈ s.types, t.IsCoherent

theorem IsCoherent.returns (hs : s.IsCoherent) : s.returns.IsCoherent :=
  hs _ List.mem_cons_self

theorem IsCoherent.argumentsDistinct (hs : s.IsCoherent) : s.ArgumentsDistinct where
  args := fun t ht =>
    (hs t (List.mem_cons_of_mem _ (List.mem_append_left _ ht))).namesDistinct
  variadic := fun t ht => by
    refine (hs t (List.mem_cons_of_mem _ (List.mem_append_right _ ?_))).namesDistinct
    exact Option.mem_toList.mpr ht

end Signature

namespace Symbol

variable {s : Symbol}

/-- The types in a symbol: its own and those of its links. -/
def types (s : Symbol) : List DataType :=
  s.type :: s.links.flatMap Signature.types

/-- All types in a symbol are coherent. -/
def IsCoherent (s : Symbol) : Prop :=
  ∀ t ∈ s.types, t.IsCoherent

/-- A symbol is coherent if its type is and its links are. -/
theorem isCoherent_iff : s.IsCoherent ↔ s.type.IsCoherent ∧ ∀ link ∈ s.links, link.IsCoherent := by
  unfold IsCoherent Signature.IsCoherent types
  rw [List.forall_mem_cons, List.forall_mem_flatMap]

end Symbol

end RelQuery
