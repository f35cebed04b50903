/-
Types without placeholders at any depth.

A type is definite if no placeholder occurs in it: not as the type of a
column, however deep, and not in the chain of its supertypes. That is
more than being concrete, which does not look at supertypes.
-/
import RelQuery.Proofs.Type.Standard

namespace RelQuery

-- ============================================================ types

namespace DataType

mutual

/-- No placeholder occurs in the type. -/
def isDefinite : DataType → Bool
  | .tuple h => columnsDefinite h
  | .relation h => columnsDefinite h
  | .user ⟨_, h, s⟩ => columnsDefinite h && superDefinite s
  | .unknown | .table | .row | .ordered | .ordinal | .any => false
  | _ => true

/-- No placeholder occurs in the supertype. -/
def superDefinite : Option DataType → Bool
  | none => true
  | some t => t.isDefinite

/-- No placeholder occurs in the types of the columns. -/
def columnsDefinite : List Column → Bool
  | [] => true
  | ⟨_, t⟩ :: rest => t.isDefinite && columnsDefinite rest

end

end DataType

/-- No placeholder occurs in the types of the columns. -/
def Heading.IsDefinite (h : Heading) : Prop :=
  ∀ c ∈ h, c.type.isDefinite = true

namespace DataType

/-- Columns are definite if the heading is. -/
theorem columnsDefinite_iff {h : Heading} : columnsDefinite h = true ↔ h.IsDefinite := by
  unfold Heading.IsDefinite
  induction h with
  | nil => simp [columnsDefinite]
  | cons c rest ih =>
      obtain ⟨name, t⟩ := c
      rw [columnsDefinite, Bool.and_eq_true, ih, List.forall_mem_cons]

@[simp] theorem isDefinite_tuple {h : Heading} : (tuple h).isDefinite = true ↔ h.IsDefinite :=
  columnsDefinite_iff

@[simp] theorem isDefinite_relation {h : Heading} :
    (relation h).isDefinite = true ↔ h.IsDefinite :=
  columnsDefinite_iff

@[simp] theorem isDefinite_user {user : UserType} : (DataType.user user).isDefinite = true ↔
    Heading.IsDefinite user.heading ∧ ∀ t ∈ user.supertype, t.isDefinite = true := by
  obtain ⟨name, h, s⟩ := user
  refine Bool.and_eq_true_iff.trans (and_congr columnsDefinite_iff ?_)
  cases s with
  | none => simp [superDefinite]
  | some t => simp [superDefinite]

/-- A definite type is no placeholder. -/
theorem isPlaceholder_of_isDefinite {t : DataType} (h : t.isDefinite = true) :
    t.isPlaceholder = false := by
  cases t with
  | unknown | table | row | ordered | ordinal | any => cases h
  | _ => rfl

mutual

/-- A definite type is concrete. -/
theorem isConcrete_of_isDefinite : ∀ {t : DataType}, t.isDefinite = true → t.isConcrete = true
  | .tuple _, h => allConcrete_of_columnsDefinite h
  | .relation _, h => allConcrete_of_columnsDefinite h
  | .user ⟨_, _, _⟩, h => allConcrete_of_columnsDefinite (Bool.and_eq_true_iff.mp h).1
  | .bool, _ | .number, _ | .text, _ | .binary, _ | .time, _ | .code, _ | .void, _ => rfl

theorem allConcrete_of_columnsDefinite :
    ∀ {columns : List Column}, columnsDefinite columns = true → allConcrete columns = true
  | [], _ => rfl
  | ⟨_, _⟩ :: _, h => by
      obtain ⟨ht, hrest⟩ := Bool.and_eq_true_iff.mp h
      exact Bool.and_eq_true_iff.mpr
        ⟨isConcrete_of_isDefinite ht, allConcrete_of_columnsDefinite hrest⟩

end

/-- A type without a heading is definite unless it is a placeholder. -/
theorem isDefinite_plain {t : DataType} (ht : t.heading? = none)
    (hplaceholder : t.isPlaceholder = false) : t.isDefinite = true := by
  cases t with
  | tuple _ | relation _ | user _ => cases ht
  | unknown | table | row | ordered | ordinal | any => cases hplaceholder
  | _ => rfl

end DataType

/-- A column of a definite type may be pushed. -/
theorem Heading.IsDefinite.push {h k : Heading} {c : Column} (hh : h.IsDefinite)
    (hc : c.type.isDefinite = true) (hk : h.push c = .ok k) : k.IsDefinite := by
  unfold Heading.push at hk
  split at hk
  · cases hk
  · cases hk
    exact List.forall_mem_append.mpr ⟨hh, List.forall_mem_singleton.mpr hc⟩

/-- A heading is definite as soon as its types are, so it stays definite
however its columns are picked and joined. -/
def Standard.definite : Standard where
  Allows t := t.isDefinite = true
  AllowsHeading := Heading.IsDefinite
  AllowsTime := fun _ => True
  plain := DataType.isDefinite_plain
  tuple := DataType.isDefinite_tuple
  relation := DataType.isDefinite_relation
  user h := (DataType.isDefinite_user.mp h).1
  types h := h
  nil := fun _ h => absurd h List.not_mem_nil
  push := Heading.IsDefinite.push
  filter _ h := fun c hc => h c (List.mem_filter.mp hc).1

-- ======================================================= signatures

/-- No placeholder occurs in the types of a signature. -/
structure Signature.IsDefinite (s : Signature) : Prop where
  returns : s.returns.isDefinite = true
  args : Heading.IsDefinite s.args
  variadic : ∀ t ∈ s.variadic, t.isDefinite = true

/-- No placeholder occurs in the type of a symbol or in its links. -/
structure Symbol.IsDefinite (s : Symbol) : Prop where
  type : s.type.isDefinite = true
  links : ∀ link ∈ s.links, link.IsDefinite

end RelQuery
