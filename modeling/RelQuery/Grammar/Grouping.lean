/-
Grouping infix chains by precedence.

A chain `x op y op z …` is grouped so that operators of equal
precedence take their operands from the left and tighter ones go
first. The grouping grows with the chain: a new operator goes down the
right edge of the tree as long as it binds strictly tighter than what
stands there, and takes what it finds below as its left operand.

Combining the groups visits the operators innermost first and from the
left, so that effects happen in the order of evaluation and the first
failure in that order is the result.

No tree is made when a sentence is built. Climbing goes through the
chain with two loops, the inner one for the operators that bind tighter
than the one at hand, and joins the operands as it goes. A loop gives
back the rest of the chain together with the proof that it is what
follows the operators that the loop takes, so the two loops can call
each other on what is left.
-/

namespace RelQuery

universe u v

/-- Operands joined by operators. -/
inductive Grouping (ω : Type u) (α : Type v) where
  | operand (a : α)
  | joined (left : Grouping ω α) (op : ω) (right : Grouping ω α)
  deriving Repr

namespace Grouping

section

variable {ω : Type u} {α : Type v}

/-- Extends a grouped chain by one more operator and operand. -/
def attach (precedence : ω → Nat) (op : ω) (a : α) : Grouping ω α → Grouping ω α
  | .operand b => .joined (.operand b) op (.operand a)
  | .joined left top right =>
    if precedence top < precedence op then .joined left top (attach precedence op a right)
    else .joined (.joined left top right) op (.operand a)

/-- The grouping of a chain. -/
def ofChain (precedence : ω → Nat) (first : α) (rest : List (ω × α)) : Grouping ω α :=
  rest.foldl (fun tree step => tree.attach precedence step.1 step.2) (.operand first)

/-- Joins the operands: left group, right group, then the operator
between them. -/
def combine {m : Type v → Type v} [Monad m] (join : α → ω → α → m α) : Grouping ω α → m α
  | .operand a => pure a
  | .joined left op right => do
    let l ← combine join left
    let r ← combine join right
    join l op r

end

-- ============================================================== loops

variable {ω α : Type} {precedence : ω → Nat} {op : ω} {rest : List (ω × α)}

/-- What a loop leaves of a chain: all from the first operator that it
does not take. -/
abbrev Left (takes : ω → Bool) (rest : List (ω × α)) : Type :=
  { left : List (ω × α) // left = rest.dropWhile fun step => takes step.1 }

section

variable {takes takes' : ω → Bool} {step : ω × α}

/-- What a loop leaves to another one that takes more. -/
theorem dropWhile_dropWhile (h : ∀ op, takes op = true → takes' op = true)
    (rest : List (ω × α)) :
    (rest.dropWhile fun step => takes step.1).dropWhile (fun step => takes' step.1)
      = rest.dropWhile fun step => takes' step.1 := by
  induction rest with
  | nil => rfl
  | cons step rest ih =>
      cases htakes : takes step.1 with
      | true => simp [htakes, h, ih]
      | false => simp [htakes]

namespace Left

theorem length_le (left : Left takes rest) : left.val.length ≤ rest.length := by
  rw [left.property]
  exact (List.dropWhile_sublist _).length_le

/-- A loop that takes the first operator leaves less. -/
theorem length_lt (left : Left takes (step :: rest)) (h : takes step.1 = true) :
    left.val.length < (step :: rest).length := by
  have hleft : left.val = rest.dropWhile fun step => takes step.1 := by
    rw [left.property, List.dropWhile_cons, if_pos h]
  rw [hleft]
  exact Nat.lt_succ_of_le (List.dropWhile_sublist _).length_le

/-- A loop that takes more may go on after another one. -/
def after (left : Left takes rest) (more : Left takes' left.val)
    (h : ∀ op, takes op = true → takes' op = true) : Left takes' rest :=
  ⟨more.val, by rw [more.property, left.property, dropWhile_dropWhile h]⟩

/-- A loop goes on after an operator that it takes. -/
def next (left : Left takes rest) (h : takes step.1 = true) : Left takes (step :: rest) :=
  ⟨left.val, by rw [left.property, List.dropWhile_cons, if_pos h]⟩

/-- A loop ends at an operator that it does not take. -/
def stop (h : takes step.1 = false) : Left takes (step :: rest) :=
  ⟨step :: rest, by rw [List.dropWhile_cons, if_neg (Bool.eq_false_iff.mp h)]⟩

/-- Where a loop ends. -/
def ended : Left takes rest :=
  ⟨_, rfl⟩

end Left

end

-- ============================================================ climbing

/-- The operator binds at least as tightly as `min`. -/
def reaches (precedence : ω → Nat) (min : Nat) (op : ω) : Bool :=
  min ≤ precedence op

/-- The operator binds tighter than `level`. -/
def exceeds (precedence : ω → Nat) (level : Nat) (op : ω) : Bool :=
  level < precedence op

theorem reaches_iff {min : Nat} : reaches precedence min op = true ↔ min ≤ precedence op :=
  decide_eq_true_iff

theorem exceeds_iff {level : Nat} : exceeds precedence level op = true ↔ level < precedence op :=
  decide_eq_true_iff

theorem reaches_of_exceeds {min : Nat} (h : reaches precedence min op = true) (next : ω)
    (hnext : exceeds precedence (precedence op) next = true) :
    reaches precedence min next = true :=
  reaches_iff.mpr (Nat.le_trans (reaches_iff.mp h) (Nat.le_of_lt (exceeds_iff.mp hnext)))

theorem exceeds_of_reaches {level : Nat} (h : exceeds precedence level op = true) (next : ω)
    (hnext : reaches precedence (precedence op) next = true) :
    exceeds precedence level next = true :=
  exceeds_iff.mpr (Nat.lt_of_lt_of_le (exceeds_iff.mp h) (reaches_iff.mp hnext))

theorem reaches_self (precedence : ω → Nat) (op : ω) :
    reaches precedence (precedence op) op = true :=
  reaches_iff.mpr (Nat.le_refl _)

section

variable {m : Type → Type} [Monad m]

mutual

/-- Takes the operators that bind at least as tightly as `min`, each
with those after it that bind tighter. -/
def climbFrom (precedence : ω → Nat) (join : α → ω → α → m α) (min : Nat) (lhs : α) :
    (rest : List (ω × α)) → m (α × Left (reaches precedence min) rest)
  | [] => return (lhs, .ended)
  | (op, rhs) :: rest =>
    if h : reaches precedence min op then do
      let (rhs, left) ← climbOver precedence join (precedence op) rhs rest
      let lhs ← join lhs op rhs
      let (lhs, more) ← climbFrom precedence join min lhs left.val
      return (lhs, (left.after more (reaches_of_exceeds h)).next h)
    else return (lhs, .stop (Bool.eq_false_iff.mpr h))
termination_by rest => 2 * rest.length
decreasing_by
  · simp only [List.length_cons]
    omega
  · have := left.length_le
    simp only [List.length_cons]
    omega

/-- Takes the operators that bind tighter than `level`, those that bind
as tightly as the next one at a time. -/
def climbOver (precedence : ω → Nat) (join : α → ω → α → m α) (level : Nat) (rhs : α) :
    (rest : List (ω × α)) → m (α × Left (exceeds precedence level) rest)
  | [] => return (rhs, .ended)
  | (next, a) :: rest =>
    if h : exceeds precedence level next then do
      let (rhs, left) ← climbFrom precedence join (precedence next) rhs ((next, a) :: rest)
      let (rhs, more) ← climbOver precedence join level rhs left.val
      return (rhs, left.after more (exceeds_of_reaches h))
    else return (rhs, .stop (Bool.eq_false_iff.mpr h))
termination_by rest => 2 * rest.length + 1
decreasing_by
  · exact Nat.lt_succ_self _
  · have := left.length_lt (reaches_self precedence next)
    omega

end

/-- Joins a chain by climbing through it. -/
def climb (precedence : ω → Nat) (join : α → ω → α → m α) (first : α) (rest : List (ω × α)) :
    m α := do
  return (← climbFrom precedence join 0 first rest).1

end

end Grouping

end RelQuery
