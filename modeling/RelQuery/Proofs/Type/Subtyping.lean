/-
Subtyping is a strict order, and matching is a preorder.

A subtype has more supertypes above it than the type it stands below,
and equal types have as many (`height`). So no type is its own subtype,
and two types are never below each other; the names of columns do not
matter for that.

For the rest they do. Walking up from a type, the chain is compared
with another type at each step, and equality has to be symmetric for
equal types to be met at the same steps (`isSubtypeOf_congr_left`). From
there a chain can be taken on where another one ends.

A declared type without placeholders accepts what equals it and what is
below it, and code accepts everything (`accepts_iff`). Equal types may be
exchanged on either side.
-/
import RelQuery.Proofs.Call.Stability
import RelQuery.Proofs.Type.Definite

namespace RelQuery

namespace DataType

variable {a b c d e : DataType}

-- =========================================================== heights

/-- How many supertypes stand above the type. -/
def height : DataType → Nat
  | .user ⟨_, _, some parent⟩ => parent.height + 1
  | _ => 0

/-- Equal types stand at one height. -/
theorem height_eq_of_same (hab : a.same b = true) : a.height = b.height := by
  induction a using DataType.induction generalizing b with
  | plain a hplain => rw [(same_plain hplain).mp hab]
  | tuple h ih =>
      obtain ⟨k, rfl, -⟩ := same_tuple.mp hab
      rfl
  | relation h ih =>
      obtain ⟨k, rfl, -⟩ := same_relation.mp hab
      rfl
  | user u ih ihs =>
      obtain ⟨v, rfl, -, -, hsuper⟩ := same_user.mp hab
      obtain ⟨n, h, s⟩ := u
      obtain ⟨m, k, t⟩ := v
      cases s with
      | none =>
          cases sameSuper_none.mp hsuper
          rfl
      | some parent =>
          obtain ⟨other, rfl, hparent⟩ := sameSuper_some.mp hsuper
          rw [height, height, ihs parent rfl hparent]

/-- What is a subtype has a supertype, and equals it or is below. -/
theorem isSubtypeOf_iff : isSubtypeOf a b = true ↔ ∃ (user : UserType) (parent : DataType),
    b = .user user ∧ user.supertype = some parent ∧
      (parent.same a = true ∨ isSubtypeOf a parent = true) := by
  constructor
  · intro h
    cases b with
    | user user =>
        obtain ⟨name, heading, super⟩ := user
        cases super with
        | none => cases h
        | some parent => exact ⟨_, parent, rfl, rfl, Bool.or_eq_true_iff.mp h⟩
    | _ => cases h
  · rintro ⟨⟨name, heading, super⟩, parent, rfl, rfl, h⟩
    exact Bool.or_eq_true_iff.mpr h

/-- A subtype stands higher than the type above it. -/
theorem height_lt_of_isSubtypeOf (hab : isSubtypeOf a b = true) : a.height < b.height := by
  induction b using DataType.induction with
  | plain b hplain =>
      obtain ⟨user, -, rfl, -⟩ := isSubtypeOf_iff.mp hab
      cases hplain
  | tuple h _ | relation h _ => cases hab
  | user u _ ih =>
      obtain ⟨⟨name, heading, super⟩, parent, ⟨⟩, rfl, h⟩ := isSubtypeOf_iff.mp hab
      rw [height]
      rcases h with hsame | hbelow
      · rw [height_eq_of_same hsame]
        exact Nat.lt_succ_self _
      · exact Nat.lt_succ_of_lt (ih parent rfl hbelow)

-- ========================================================== subtypes

/-- No type is its own subtype. -/
theorem isSubtypeOf_irrefl (a : DataType) : isSubtypeOf a a = false := by
  rw [← Bool.not_eq_true]
  intro h
  exact Nat.lt_irrefl _ (height_lt_of_isSubtypeOf h)

/-- Of two types only one can be below the other. -/
theorem isSubtypeOf_asymm (hab : isSubtypeOf a b = true) : isSubtypeOf b a = false := by
  rw [← Bool.not_eq_true]
  intro hba
  exact Nat.lt_asymm (height_lt_of_isSubtypeOf hab) (height_lt_of_isSubtypeOf hba)

/-- Equal types are below the same types. -/
theorem isSubtypeOf_congr_left (ha : a.namesDistinct = true) (hab : a.same b = true)
    (other : DataType) : isSubtypeOf other a = isSubtypeOf other b := by
  induction a using DataType.induction generalizing b with
  | plain a hplain => rw [(same_plain hplain).mp hab]
  | tuple h ih =>
      obtain ⟨k, rfl, -⟩ := same_tuple.mp hab
      rfl
  | relation h ih =>
      obtain ⟨k, rfl, -⟩ := same_relation.mp hab
      rfl
  | user u ih ihs =>
      obtain ⟨-, -, hdistinct⟩ := namesDistinct_user.mp ha
      obtain ⟨v, rfl, -, -, hsuper⟩ := same_user.mp hab
      obtain ⟨n, h, s⟩ := u
      obtain ⟨m, k, t⟩ := v
      cases s with
      | none =>
          cases sameSuper_none.mp hsuper
          rfl
      | some parent =>
          obtain ⟨parent', rfl, hparent⟩ := sameSuper_some.mp hsuper
          have hd := hdistinct parent rfl
          rw [isSubtypeOf, isSubtypeOf, same_congr hd hparent, ihs parent rfl hd hparent]

/-- Equal types may be exchanged on both sides. -/
theorem isSubtypeOf_exchange (ha : a.namesDistinct = true) (hb : b.namesDistinct = true)
    (had : a.same d = true) (hbe : b.same e = true) : isSubtypeOf a b = isSubtypeOf d e := by
  rw [isSubtypeOf_congr ha had b, isSubtypeOf_congr_left hb hbe d]

/-- A chain goes on where another one ends. -/
theorem isSubtypeOf_trans (hc : c.namesDistinct = true) (hab : isSubtypeOf a b = true)
    (hbc : isSubtypeOf b c = true) : isSubtypeOf a c = true := by
  induction c using DataType.induction with
  | plain c hplain =>
      obtain ⟨user, -, rfl, -⟩ := isSubtypeOf_iff.mp hbc
      cases hplain
  | tuple h _ | relation h _ => cases hbc
  | user u _ ih =>
      obtain ⟨-, -, hdistinct⟩ := namesDistinct_user.mp hc
      obtain ⟨user, parent, ⟨⟩, hparent, h⟩ := isSubtypeOf_iff.mp hbc
      have hd := hdistinct parent hparent
      refine isSubtypeOf_iff.mpr ⟨u, parent, rfl, hparent, .inr ?_⟩
      rcases h with hsame | hbelow
      · rw [isSubtypeOf_congr_left hd hsame]
        exact hab
      · exact ih parent hparent hd hbelow

-- ========================================================== matching

/-- What a declared type accepts that is no placeholder. -/
theorem accepts_iff (ha : a.isPlaceholder = false) :
    a.accepts b = true ↔ a.same b = true ∨ a = .code ∨ isSubtypeOf a b = true := by
  unfold accepts
  cases a with
  | unknown | table | row | ordered | ordinal | any => cases ha
  | code => simp
  | _ => simp

/-- A type accepts itself. -/
theorem accepts_refl (ha : a.namesDistinct = true) : a.accepts a = true := by
  unfold accepts
  rw [same_refl ha]
  rfl

/-- Equal types may stand in the same places. -/
theorem accepts_congr_right (ha : a.namesDistinct = true) (hab : a.same b = true)
    (declared : DataType) : declared.accepts a = declared.accepts b := by
  have hsame : declared.same a = declared.same b :=
    Bool.eq_iff_iff.mpr ⟨fun h => same_trans h hab, fun h => same_trans h (same_symm ha hab)⟩
  unfold accepts
  rw [hsame, isSubtypeOf_congr_left ha hab]
  -- what a placeholder takes depends on the outermost shape alone
  exact same_cases hab (fun _ _ => rfl) (fun _ _ => rfl) (fun _ _ => rfl) (fun _ _ => rfl)

/-- Equal types may be exchanged on both sides. -/
theorem accepts_exchange (ha : a.namesDistinct = true) (hb : b.namesDistinct = true)
    (had : a.same d = true) (hbe : b.same e = true) : a.accepts b = d.accepts e := by
  rw [accepts_congr ha had b, accepts_congr_right hb hbe d]

/-- What stands for a type stands wherever that type may. -/
theorem accepts_trans (ha : a.namesDistinct = true) (hb : b.namesDistinct = true)
    (hc : c.namesDistinct = true) (hplaceholder : a.isPlaceholder = false)
    (hab : a.accepts b = true) (hbc : b.accepts c = true) : a.accepts c = true := by
  rcases (accepts_iff hplaceholder).mp hab with hsame | rfl | hbelow
  · rw [accepts_congr ha hsame]
    exact hbc
  · exact (accepts_iff rfl).mpr (.inr (.inl rfl))
  · refine (accepts_iff hplaceholder).mpr (.inr (.inr ?_))
    -- a subtype is a user type, so it is neither a placeholder nor code
    obtain ⟨user, parent, rfl, -⟩ := isSubtypeOf_iff.mp hbelow
    rcases (accepts_iff rfl).mp hbc with hsame | hcode | hbelow'
    · rw [← isSubtypeOf_congr_left hb hsame]
      exact hbelow
    · cases hcode
    · exact isSubtypeOf_trans hc hbelow hbelow'

/-- Subtyping is a strict order on types, and matching a preorder on those
without placeholders; neither tells equal types apart. Types are compared
up to the order of their columns, so that names must be distinct for all
but the first two laws, and of placeholders only the declared type must be
free for the transitivity of matching. -/
theorem subtyping_and_matching_are_orders :
    (∀ a : DataType, isSubtypeOf a a = false) ∧
    (∀ a b : DataType, isSubtypeOf a b = true → isSubtypeOf b a = false) ∧
    (∀ a b c : DataType, c.namesDistinct = true →
      isSubtypeOf a b = true → isSubtypeOf b c = true → isSubtypeOf a c = true) ∧
    (∀ a b d e : DataType, a.namesDistinct = true → b.namesDistinct = true →
      a.same d = true → b.same e = true → isSubtypeOf a b = isSubtypeOf d e) ∧
    (∀ a : DataType, a.namesDistinct = true → a.accepts a = true) ∧
    (∀ a b c : DataType, a.namesDistinct = true → b.namesDistinct = true → c.namesDistinct = true →
      a.isDefinite = true → a.accepts b = true → b.accepts c = true → a.accepts c = true) ∧
    (∀ a b d e : DataType, a.namesDistinct = true → b.namesDistinct = true →
      a.same d = true → b.same e = true → a.accepts b = d.accepts e) :=
  ⟨isSubtypeOf_irrefl, fun _ _ => isSubtypeOf_asymm, fun _ _ _ => isSubtypeOf_trans,
    fun _ _ _ _ => isSubtypeOf_exchange, fun _ => accepts_refl,
    fun _ _ _ ha hb hc hdefinite =>
      accepts_trans ha hb hc (isPlaceholder_of_isDefinite hdefinite),
    fun _ _ _ _ => accepts_exchange⟩

/-- A chain of three types, the middle one declared in another order of
columns where it is a supertype. -/
theorem subtyping_and_matching_are_orders_chained :
    let pair : Heading := [⟨"x", .number⟩, ⟨"y", .text⟩]
    let shape : DataType := .user ⟨"shape", pair, none⟩
    let polygon (h : Heading) : DataType := .user ⟨"polygon", h, some shape⟩
    let square : DataType := .user ⟨"square", pair, some (polygon pair.reverse)⟩
    isSubtypeOf shape (polygon pair) = true ∧ isSubtypeOf (polygon pair) square = true ∧
      isSubtypeOf shape square = true ∧ isSubtypeOf square shape = false ∧
      isSubtypeOf (polygon pair.reverse) square = true ∧
      shape.accepts square = true ∧ (polygon pair.reverse).accepts square = true := by
  intro pair shape polygon square
  obtain ⟨-, hasymm, htrans, hexchange, hrefl, hmatch, hmatch'⟩ :=
    subtyping_and_matching_are_orders
  have hshape : shape.namesDistinct = true := by decide +kernel
  have hpolygon : (polygon pair).namesDistinct = true := by decide +kernel
  have hsquare : square.namesDistinct = true := by decide +kernel
  have hreordered : (polygon pair).same (polygon pair.reverse) = true := by decide +kernel
  have hfirst : isSubtypeOf shape (polygon pair) = true := by decide +kernel
  have hsecond : isSubtypeOf (polygon pair) square = true := by decide +kernel
  have hwhole := htrans shape (polygon pair) square hsquare hfirst hsecond
  refine ⟨hfirst, hsecond, hwhole, hasymm _ _ hwhole, ?_, ?_, ?_⟩
  · rw [← hexchange (polygon pair) square _ square hpolygon hsquare hreordered (same_refl hsquare)]
    exact hsecond
  · exact hmatch shape (polygon pair) square hshape hpolygon hsquare rfl
      (by decide +kernel) (by decide +kernel)
  · rw [← hmatch' (polygon pair) square _ square hpolygon hsquare hreordered (same_refl hsquare)]
    exact (accepts_iff rfl).mpr (.inr (.inr hsecond))

end DataType

end RelQuery
