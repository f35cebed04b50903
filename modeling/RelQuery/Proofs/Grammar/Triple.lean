/-
Triples for readers.

What is left to read at a cursor can be told in more than one way: by
the tokens that are left, if they are set apart, or by the text itself.
The rules that take a reader apart do not depend on which it is. They
are stated here over a relation `At` between cursors and what is left,
a list in either case.

`ReadsAt At r a b P` is the triple: where `a` is left the reader
succeeds with a result of which `P` holds, and leaves `b`. `MissesAt`
says that it fails there so that another alternative is tried. Of `At`
itself only two things are needed (`Position`): going on to the next
token changes nothing about what is left, and what is left is no longer
than the text, so that loops get enough rounds.

Lists between separators come last. An item is followed by a separator
or by what ends the list; what is known of it before either (`InList`)
is all that the loop over the items asks for.
-/
import Mathlib.Data.List.Forall2
import RelQuery.Grammar.Expression
import RelQuery.Proofs.Grammar.Brackets

namespace RelQuery

namespace Reading

variable {τ α β γ : Type} {At : Cursor → List τ → Prop}

/-- Where `a` is left the reader succeeds, and leaves `b`. -/
def ReadsAt (At : Cursor → List τ → Prop) (r : Reading α) (a b : List τ) (P : α → Prop) : Prop :=
  ∀ c, At c a → ∃ x c', r c = .ok (x, c') ∧ P x ∧ At c' b

/-- Where `a` is left the reader misses, and an alternative may be
tried. -/
def MissesAt (At : Cursor → List τ → Prop) (r : Reading α) (a : List τ) : Prop :=
  ∀ c, At c a → ∃ m, r c = .error m ∧ m.cut = false

-- =========================================================== success

namespace ReadsAt

variable {r : Reading α} {f : α → Reading β} {a b e : List τ} {P Q : α → Prop}

/-- A result that is there takes nothing. -/
theorem result {x : α} (h : P x) : ReadsAt At (pure x) a a P :=
  fun c hc => ⟨x, c, rfl, h, hc⟩

/-- The second reader starts where the first one has stopped. -/
theorem bind {Q : β → Prop} (hr : ReadsAt At r a b P)
    (hf : ∀ x, P x → ReadsAt At (f x) b e Q) : ReadsAt At (r >>= f) a e Q := by
  intro c hc
  obtain ⟨x, c₁, hrun, hx, hc₁⟩ := hr c hc
  obtain ⟨y, c₂, hrun', hy, hc₂⟩ := hf x hx c₁ hc₁
  refine ⟨y, c₂, ?_, hy, hc₂⟩
  rw [bind_apply, hrun]
  exact hrun'

/-- A reader whose result is known goes on with it. -/
theorem followedBy {x : α} {Q : β → Prop} (hr : ReadsAt At r a b (· = x))
    (hf : ReadsAt At (f x) b e Q) : ReadsAt At (r >>= f) a e Q :=
  hr.bind fun _ hy => hy ▸ hf

/-- What is read may be said less exactly. -/
theorem weaken (hr : ReadsAt At r a b P) (h : ∀ x, P x → Q x) : ReadsAt At r a b Q := by
  intro c hc
  obtain ⟨x, c', hrun, hx, hc'⟩ := hr c hc
  exact ⟨x, c', hrun, h x hx, hc'⟩

/-- What a miss would have been told about does not matter here. -/
theorem onMiss {g : Miss → Miss} (hr : ReadsAt At r a b P) : ReadsAt At (onMiss g r) a b P := by
  intro c hc
  obtain ⟨x, c', hrun, hx, hc'⟩ := hr c hc
  refine ⟨x, c', ?_, hx, hc'⟩
  rw [Reading.onMiss, hrun]

theorem required {label : Label} (hr : ReadsAt At r a b P) :
    ReadsAt At (required label r) a b P :=
  hr.onMiss

theorem wanting {t : String} (hr : ReadsAt At r a b P) : ReadsAt At (wanting t r) a b P :=
  hr.onMiss

/-- What is read may be optional. -/
theorem optional (hr : ReadsAt At r a b P) :
    ReadsAt At (optional r) a b fun o => ∃ x, o = some x ∧ P x := by
  intro c hc
  obtain ⟨x, c', hrun, hx, hc'⟩ := hr c hc
  refine ⟨some x, c', ?_, ⟨x, rfl, hx⟩, hc'⟩
  rw [Reading.optional, hrun]

/-- A token that is read has been found. -/
theorem found (hr : ReadsAt At r a b P) : ReadsAt At (found r) a b (· = true) := by
  refine hr.optional.bind fun o ho => ?_
  obtain ⟨x, rfl, -⟩ := ho
  exact result rfl

end ReadsAt

-- ============================================================ misses

namespace MissesAt

variable {r : Reading α} {a : List τ}

/-- Nothing is taken when an option misses. -/
theorem optional (h : MissesAt At r a) : ReadsAt At (optional r) a a (· = none) := by
  intro c hc
  obtain ⟨m, hrun, hcut⟩ := h c hc
  refine ⟨none, c, ?_, rfl, hc⟩
  rw [Reading.optional, hrun]
  simp [hcut]

/-- A token that is missed has not been found, and nothing was taken. -/
theorem found (h : MissesAt At r a) : ReadsAt At (found r) a a (· = false) :=
  h.optional.followedBy (.result rfl)

/-- What begins with a reader that misses is missed. -/
theorem bind (h : MissesAt At r a) (f : α → Reading β) : MissesAt At (r >>= f) a := by
  intro c hc
  obtain ⟨m, hrun, hcut⟩ := h c hc
  refine ⟨m, ?_, hcut⟩
  rw [bind_apply, hrun]
  rfl

end MissesAt

/-- A reader misses also where something has been read before. -/
theorem ReadsAt.bind_misses {r : Reading α} {f : α → Reading β} {a b : List τ} {P : α → Prop}
    (hr : ReadsAt At r a b P) (hf : ∀ x, P x → MissesAt At (f x) b) :
    MissesAt At (r >>= f) a := by
  intro c hc
  obtain ⟨x, c', hrun, hx, hc'⟩ := hr c hc
  obtain ⟨m, hmiss, hcut⟩ := hf x hx c' hc'
  refine ⟨m, ?_, hcut⟩
  rw [bind_apply, hrun]
  exact hmiss

-- ========================================================= positions

/-- What is left at a cursor is told from the next token on, and is no
longer than the text. -/
structure Position (At : Cursor → List τ → Prop) : Prop where
  skip : ∀ {c : Cursor} {a : List τ}, At c a → At c.skip a
  length_le : ∀ {c : Cursor} {a : List τ}, At c a → a.length ≤ c.rest.length + 1

namespace Position

variable (hAt : Position At) {a b tail : List τ}

include hAt

theorem mark (a : List τ) : ReadsAt At mark a a fun _ => True :=
  fun c hc => ⟨c.skip.offset, c.skip, rfl, trivial, hAt.skip hc⟩

/-- Looking ahead tells what every cursor has in front of it where `a`
is left. -/
theorem ahead {P : List Char → Prop} (h : ∀ c, At c a → P c.skip.rest) :
    ReadsAt At ahead a a P :=
  fun c hc => ⟨c.skip.rest, c.skip, rfl, h c hc, hAt.skip hc⟩

/-- A loop has as many rounds as there are things left. -/
theorem bounded {r : Nat → Reading α} {P : α → Prop}
    (hr : ∀ n, a.length ≤ n → ReadsAt At (r n) a b P) : ReadsAt At (bounded r) a b P :=
  fun c hc => hr _ (hAt.length_le hc) c hc

-- ==================================================== ends of loops

/-- A base without a selection behind it is taken as it is. -/
theorem selections_stop {n : Nested} {base : Expr} {P : Expr → Prop} (fuel : Nat)
    (hpoint : MissesAt At (token ".") tail) (hbase : P base) :
    ReadsAt At (selections n fuel base) tail tail P := by
  cases fuel with
  | zero => exact .result hbase
  | succ fuel =>
      exact (hAt.mark tail).bind fun _ _ => hpoint.found.followedBy (.result hbase)

/-- A chain ends where no operator follows. -/
theorem steps_stop {operand : Reading Expr} (fuel : Nat)
    (hoperator : MissesAt At infixOperator tail) :
    ReadsAt At (steps operand fuel) tail tail (· = []) := by
  cases fuel with
  | zero => exact .result rfl
  | succ fuel =>
      exact (hAt.mark tail).bind fun _ _ => hoperator.optional.followedBy (.result rfl)

end Position

-- ============================================================= lists

/-- What follows an item: the items `texts` with `sep` before each, and
the end of the list. -/
def remaining (sep : List τ) (texts : List (List τ)) (tail : List τ) : List τ :=
  texts.flatMap (sep ++ ·) ++ tail

/-- Items that remain are a separator, the next of them and the rest. -/
theorem remaining_cons (sep text : List τ) (texts : List (List τ)) (tail : List τ) :
    remaining sep (text :: texts) tail = sep ++ (text ++ remaining sep texts tail) := by
  simp only [remaining, List.flatMap_cons, List.append_assoc]

/-- The number of items is no more than the length of what they stand
in. -/
theorem length_le_remaining {sep : List τ} (hsep : sep ≠ []) (texts : List (List τ))
    (tail : List τ) : texts.length ≤ (remaining sep texts tail).length := by
  induction texts with
  | nil => exact Nat.zero_le _
  | cons text texts ih =>
      have hpos := List.length_pos_iff.mpr hsep
      rw [remaining_cons, List.length_append, List.length_append, List.length_cons]
      omega

/-- The text of an item is read as `y`, up to what `plain` takes away,
whatever items follow; so it is with the separator before it. -/
structure InList (At : Cursor → List τ → Prop) (separator : Reading Unit) (item : Reading α)
    (plain : α → γ) (sep tail text : List τ) (y : γ) : Prop where
  first : ∀ texts, ReadsAt At item (text ++ remaining sep texts tail) (remaining sep texts tail)
    fun x => plain x = y
  next : ∀ texts, ReadsAt At (do separator; item) (sep ++ (text ++ remaining sep texts tail))
    (remaining sep texts tail) fun x => plain x = y

section Lists

variable {separator : Reading Unit} {item : Reading α} {plain : α → γ} {sep tail text : List τ}
  {texts : List (List τ)} {y : γ} {ys : List γ}

/-- The rest of a list is read item by item, up to what is no separator. -/
theorem separatedRest_readsAt (hclose : MissesAt At separator tail)
    (h : List.Forall₂ (InList At separator item plain sep tail) texts ys) {n : Nat}
    (hn : texts.length ≤ n) :
    ReadsAt At (separatedRest separator item n) (remaining sep texts tail) tail
      fun xs => xs.map plain = ys := by
  induction h generalizing n with
  | nil =>
      cases n with
      | zero => exact .result rfl
      | succ n => exact (hclose.bind _).optional.followedBy (.result rfl)
  | @cons text y texts ys hfirst hrest ih =>
      obtain ⟨n, rfl⟩ := Nat.exists_eq_succ_of_ne_zero (Nat.ne_zero_of_lt hn)
      rw [remaining_cons]
      refine (hfirst.next texts).optional.bind fun o ho => ?_
      obtain ⟨x, rfl, hx⟩ := ho
      refine (ih (Nat.le_of_succ_le_succ hn)).bind fun xs hxs => .result ?_
      rw [List.map_cons, hx, hxs]

/-- The rest of a list, given its first item. -/
theorem rest_readsAt (hAt : Position At) (hsep : sep ≠ []) (hclose : MissesAt At separator tail)
    (h : List.Forall₂ (InList At separator item plain sep tail) texts ys) {x : α}
    (hx : plain x = y) :
    ReadsAt At (do return x :: (← bounded (separatedRest separator item)))
      (remaining sep texts tail) tail fun xs => xs.map plain = y :: ys := by
  have hrest : ReadsAt At (bounded (separatedRest separator item)) (remaining sep texts tail) tail
      fun xs => xs.map plain = ys := by
    refine hAt.bounded fun n hn => separatedRest_readsAt hclose h ?_
    exact Nat.le_trans (length_le_remaining hsep texts tail) hn
  refine hrest.bind fun xs hxs => .result ?_
  rw [List.map_cons, hx, hxs]

/-- One item or more. -/
theorem separated1_readsAt (hAt : Position At) (hsep : sep ≠ [])
    (hclose : MissesAt At separator tail)
    (hfirst : InList At separator item plain sep tail text y)
    (hrest : List.Forall₂ (InList At separator item plain sep tail) texts ys) :
    ReadsAt At (separated1 separator item) (text ++ remaining sep texts tail) tail
      fun xs => xs.map plain = y :: ys :=
  (hfirst.first texts).bind fun _ hx => rest_readsAt hAt hsep hclose hrest hx

/-- The same where the list might be empty. -/
theorem separated_readsAt (hAt : Position At) (hsep : sep ≠ [])
    (hclose : MissesAt At separator tail)
    (hfirst : InList At separator item plain sep tail text y)
    (hrest : List.Forall₂ (InList At separator item plain sep tail) texts ys) :
    ReadsAt At (separated separator item) (text ++ remaining sep texts tail) tail
      fun xs => xs.map plain = y :: ys := by
  refine (hfirst.first texts).optional.bind fun o ho => ?_
  obtain ⟨x, rfl, hx⟩ := ho
  exact rest_readsAt hAt hsep hclose hrest hx

/-- No item stands before what ends the list. -/
theorem separated_readsAt_nil (h : MissesAt At item tail) :
    ReadsAt At (separated separator item) tail tail (· = []) :=
  h.optional.followedBy (.result rfl)

end Lists

end Reading

end RelQuery
