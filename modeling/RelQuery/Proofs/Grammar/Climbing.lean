/-
Chains grouped in one pass.

A grouping fits its precedences (`Binds`) if at every node the operator
at the root of the left group binds at least as tightly, and the one at
the root of the right group strictly tighter. A chain has exactly one
such grouping, and that is the one which grows by `attach`
(`eq_ofChain_iff`).

Two algorithms join the operands without making a tree first. Climbing
(`climb`) goes through the chain with two loops, the inner one for the
operators that bind tighter than the one at hand; the shunting yard
(`shuntingYard`) keeps operators and operands on stacks. Both call `join`
just as `combine` does on the grouping: once for each operator, first the
groups on its two sides, and no more after a call that fails. A chain is
cut where an operator binds no tighter than the root of the group before
it (`combine_extend`); for climbing this is where a loop ends. The yard
is first run on trees, where it keeps the right edge of the grouping on
its stacks, and then on what these trees come to.
-/
import RelQuery.Proofs.Grammar.Grouping
import Mathlib.Data.List.TakeWhile

namespace RelQuery

namespace Grouping

variable {ω α : Type} {precedence : ω → Nat} {op : ω} {a v : α} {g t : Grouping ω α}
  {rest : List (ω × α)}

-- ================================================== fitting groupings

/-- The leftmost operand. -/
def first : Grouping ω α → α
  | .operand a => a
  | .joined left _ _ => left.first

/-- The operators from left to right, each with the operand that
follows it. -/
def steps : Grouping ω α → List (ω × α)
  | .operand _ => []
  | .joined left op right => left.steps ++ (op, right.first) :: right.steps

/-- The operator that is applied last. -/
def root? : Grouping ω α → Option ω
  | .operand _ => none
  | .joined _ op _ => some op

/-- At every node the root of the left group binds at least as tightly,
and the root of the right group strictly tighter. -/
def Binds (precedence : ω → Nat) : Grouping ω α → Prop
  | .operand _ => True
  | .joined left op right =>
    (∀ top ∈ left.root?, precedence op ≤ precedence top) ∧
    (∀ top ∈ right.root?, precedence op < precedence top) ∧
    left.Binds precedence ∧ right.Binds precedence

/-- The operators in the order in which they are applied. -/
def calls : Grouping ω α → List ω
  | .operand _ => []
  | .joined left op right => left.calls ++ right.calls ++ [op]

/-- Each operator of the chain is applied once. -/
theorem calls_perm (g : Grouping ω α) : g.calls.Perm (g.steps.map Prod.fst) := by
  induction g with
  | operand a => exact .nil
  | joined left op right ihl ihr =>
      rw [calls, steps, List.map_append, List.map_cons, List.append_assoc]
      exact ihl.append ((List.perm_append_singleton op _).trans (ihr.cons op))

/-- The grouping with more operators and operands after it. -/
def extend (precedence : ω → Nat) (g : Grouping ω α) (rest : List (ω × α)) : Grouping ω α :=
  rest.foldl (fun tree step => tree.attach precedence step.1 step.2) g

/-- A grouping is extended by one list of steps and then by another. -/
theorem extend_append (g : Grouping ω α) (rest more : List (ω × α)) :
    g.extend precedence (rest ++ more) = (g.extend precedence rest).extend precedence more :=
  List.foldl_append

/-- An operator that binds no tighter than the root takes the whole
group. -/
theorem attach_of_root (h : ∀ top ∈ g.root?, precedence op ≤ precedence top) :
    g.attach precedence op a = .joined g op (.operand a) := by
  cases g with
  | operand b => rfl
  | joined left top right => exact if_neg (Nat.not_lt.mpr (h top rfl))

/-- A step at the right end keeps the first operand. -/
theorem first_attach (g : Grouping ω α) : (g.attach precedence op a).first = g.first := by
  cases g with
  | operand b => rfl
  | joined left top right =>
      unfold attach
      split
      · rfl
      · rfl

/-- A step at the right end is the last step. -/
theorem steps_attach (g : Grouping ω α) :
    (g.attach precedence op a).steps = g.steps ++ [(op, a)] := by
  induction g with
  | operand b => rfl
  | joined left top right _ ih =>
      unfold attach
      split
      · rw [steps, ih, first_attach, steps, List.append_assoc, List.cons_append]
      · rfl

/-- Steps at the right end keep the first operand. -/
theorem first_extend (g : Grouping ω α) (rest : List (ω × α)) :
    (g.extend precedence rest).first = g.first := by
  induction rest generalizing g with
  | nil => rfl
  | cons step rest ih => exact (ih _).trans (first_attach g)

/-- Steps at the right end are the last steps. -/
theorem steps_extend (g : Grouping ω α) (rest : List (ω × α)) :
    (g.extend precedence rest).steps = g.steps ++ rest := by
  induction rest generalizing g with
  | nil => exact (List.append_nil _).symm
  | cons step rest ih =>
      refine (ih _).trans ?_
      rw [steps_attach, List.append_assoc]
      rfl

/-- The root is the new operator or the one that was there. -/
theorem root?_attach {top : ω} (h : top ∈ (g.attach precedence op a).root?) :
    top = op ∨ top ∈ g.root? := by
  cases g with
  | operand b => exact .inl (Option.some.inj h).symm
  | joined left own right =>
      unfold attach at h
      split at h
      · exact .inr h
      · exact .inl (Option.some.inj h).symm

/-- A step at the right end keeps a grouping fitting. -/
theorem binds_attach (h : g.Binds precedence) : (g.attach precedence op a).Binds precedence := by
  induction g with
  | operand b => exact ⟨nofun, nofun, trivial, trivial⟩
  | joined left top right _ ih =>
      obtain ⟨hleft, hright, hl, hr⟩ := h
      unfold attach
      split
      · rename_i htighter
        refine ⟨hleft, fun own hown => ?_, hl, ih hr⟩
        rcases root?_attach hown with rfl | hown
        · exact htighter
        · exact hright own hown
      · rename_i hlooser
        refine ⟨?_, nofun, ⟨hleft, hright, hl, hr⟩, trivial⟩
        rintro _ ⟨⟩
        exact Nat.not_lt.mp hlooser

/-- Steps at the right end keep a grouping fitting. -/
theorem binds_extend (h : g.Binds precedence) (rest : List (ω × α)) :
    (g.extend precedence rest).Binds precedence := by
  induction rest generalizing g with
  | nil => exact h
  | cons step rest ih => exact ih (binds_attach h)

/-- What the root of a fitting group reaches, all of its operators
reach. -/
theorem Binds.le_steps (h : g.Binds precedence) {level : Nat}
    (hroot : ∀ top ∈ g.root?, level ≤ precedence top) :
    ∀ step ∈ g.steps, level ≤ precedence step.1 := by
  induction g generalizing level with
  | operand a => exact fun _ hstep => absurd hstep List.not_mem_nil
  | joined left op right ihl ihr =>
      obtain ⟨hleft, hright, hl, hr⟩ := h
      have hop : level ≤ precedence op := hroot op rfl
      refine List.forall_mem_append.mpr ⟨?_, List.forall_mem_cons.mpr ⟨hop, ?_⟩⟩
      · exact ihl hl fun top htop => Nat.le_trans hop (hleft top htop)
      · exact ihr hr fun top htop => Nat.le_trans hop (Nat.le_of_lt (hright top htop))

/-- Operators that bind tighter than the root belong to the right
group. -/
theorem extend_joined {left right : Grouping ω α}
    (h : ∀ step ∈ rest, precedence op < precedence step.1) :
    extend precedence (.joined left op right) rest
      = .joined left op (right.extend precedence rest) := by
  induction rest generalizing right with
  | nil => rfl
  | cons step rest ih =>
      obtain ⟨hstep, hrest⟩ := List.forall_mem_cons.mp h
      show extend precedence (if _ then _ else _) rest = _
      rw [if_pos hstep]
      exact ih hrest

/-- A fitting grouping is that of its chain. -/
theorem Binds.eq_ofChain (h : g.Binds precedence) : g = ofChain precedence g.first g.steps := by
  induction g with
  | operand a => rfl
  | joined left op right ihl ihr =>
      obtain ⟨hleft, hright, hl, hr⟩ := h
      have htighter : ∀ step ∈ right.steps, precedence op < precedence step.1 :=
        hr.le_steps hright
      have hall : extend precedence (.operand left.first)
          (left.steps ++ (op, right.first) :: right.steps) = .joined left op right := by
        rw [extend_append]
        show extend precedence (attach precedence op right.first
          (ofChain precedence left.first left.steps)) right.steps = _
        rw [← ihl hl, attach_of_root hleft, extend_joined htighter]
        exact congrArg (joined left op) (ihr hr).symm
      exact hall.symm

/-- A chain has exactly one fitting grouping. -/
theorem eq_ofChain_iff {start : α} :
    (g.first = start ∧ g.steps = rest ∧ g.Binds precedence) ↔
      g = ofChain precedence start rest := by
  constructor
  · rintro ⟨rfl, rfl, h⟩
    exact h.eq_ofChain
  · rintro rfl
    have hoperand : Binds precedence (.operand start : Grouping ω α) := trivial
    exact ⟨first_extend _ rest, steps_extend _ rest, binds_extend hoperand rest⟩

-- ===================================================== cutting a chain

/-- The tree with another group in place of its leftmost operand. -/
def graft (g : Grouping ω α) : Grouping ω α → Grouping ω α
  | .operand _ => g
  | .joined left op right => .joined (graft g left) op right

/-- Steps above the root of the left part leave that part alone. -/
theorem extend_graft (left right : Grouping ω α) :
    extend precedence (.joined (graft g left) op right) rest
      = graft g (extend precedence (.joined left op right) rest) := by
  induction rest generalizing left op right with
  | nil => rfl
  | cons step rest ih =>
      show extend precedence (if _ then _ else _) rest
        = graft g (extend precedence (if _ then _ else _) rest)
      split
      · exact ih left _
      · exact ih (.joined left op right) _

/-- If the next operator binds no weaker than the root, the steps stay on
the right. -/
theorem extend_of_root (h : ∀ step ∈ rest.head?, ∀ top ∈ g.root?,
    precedence step.1 ≤ precedence top) (v : α) :
    g.extend precedence rest = graft g (ofChain precedence v rest) := by
  cases rest with
  | nil => rfl
  | cons step rest =>
      show extend precedence (attach precedence step.1 step.2 g) rest = _
      rw [attach_of_root (h step rfl)]
      exact extend_graft (.operand v) _

section

variable {m : Type → Type} [Monad m] [LawfulMonad m] (join : α → ω → α → m α)

/-- Joining a grafted grouping joins the left part first. -/
theorem combine_graft (g t : Grouping ω α) :
    (graft g t).combine join
      = g.combine join >>= fun v => (graft (.operand v) t).combine join := by
  induction t with
  | operand a => exact (bind_pure _).symm
  | joined left op right ihl _ =>
      simp only [graft, combine]
      rw [ihl, bind_assoc]

/-- What stands before an operator that binds no tighter than its root
is joined first, and then is an operand like any other. -/
theorem combine_extend (h : ∀ step ∈ rest.head?, ∀ top ∈ g.root?,
    precedence step.1 ≤ precedence top) :
    (g.extend precedence rest).combine join
      = g.combine join >>= fun v => (ofChain precedence v rest).combine join := by
  have hoperand (v : α) : graft (.operand v) (ofChain precedence g.first rest)
      = ofChain precedence v rest :=
    (extend_of_root (g := .operand v) (fun _ _ => nofun) g.first).symm
  rw [extend_of_root h g.first, combine_graft]
  simp only [hoperand]

/-- The groups of a cut chain: the first ends before an operator that
binds no tighter than any in it. -/
theorem combine_split (start : α) {run : List (ω × α)} (level : Nat)
    (hrun : ∀ step ∈ run, level ≤ precedence step.1)
    (hrest : ∀ step ∈ rest.head?, precedence step.1 ≤ level) :
    (ofChain precedence start (run ++ rest)).combine join
      = (ofChain precedence start run).combine join >>= fun v =>
        (ofChain precedence v rest).combine join := by
  have happend : ofChain precedence start (run ++ rest)
      = (ofChain precedence start run).extend precedence rest := extend_append _ run rest
  rw [happend]
  refine combine_extend join fun step hstep top htop => ?_
  have hoperator : top ∈ (ofChain precedence start run).operators := by
    generalize ofChain precedence start run = g at htop
    cases g with
    | operand b => cases htop
    | joined left own right =>
        cases htop
        exact List.mem_cons_self
  have hmem : top ∈ run.map Prod.fst := mem_operators_ofChain hoperator
  obtain ⟨other, hother, rfl⟩ := List.mem_map.mp hmem
  exact Nat.le_trans (hrest step hstep) (hrun other hother)

/-- One operator, all those that bind tighter, and then the others. -/
theorem combine_cons {start b : α} {run : List (ω × α)}
    (hrun : ∀ step ∈ run, precedence op < precedence step.1)
    (hrest : ∀ step ∈ rest.head?, precedence step.1 ≤ precedence op) :
    (ofChain precedence start ((op, b) :: (run ++ rest))).combine join
      = (ofChain precedence b run).combine join >>= fun rhs => join start op rhs >>= fun lhs =>
        (ofChain precedence lhs rest).combine join := by
  have hfirst : ofChain precedence start ((op, b) :: run)
      = .joined (.operand start) op (ofChain precedence b run) := extend_joined hrun
  have hall : ∀ step ∈ (op, b) :: run, precedence op ≤ precedence step.1 :=
    List.forall_mem_cons.mpr ⟨Nat.le_refl _, fun step hstep => Nat.le_of_lt (hrun step hstep)⟩
  have hcut := combine_split join start (precedence op) hall hrest
  rw [List.cons_append, hfirst] at hcut
  rw [hcut]
  simp only [combine, pure_bind, bind_assoc]

end

-- ============================================================== loops

section

variable {takes takes' : ω → Bool} {step : ω × α}

/-- What a loop takes, and what is left to another one that takes
more. -/
theorem takeWhile_append (h : ∀ op, takes op = true → takes' op = true)
    (rest : List (ω × α)) :
    rest.takeWhile (fun step => takes' step.1) = (rest.takeWhile fun step => takes step.1) ++
      (rest.dropWhile fun step => takes step.1).takeWhile fun step => takes' step.1 := by
  induction rest with
  | nil => rfl
  | cons step rest ih =>
      cases htakes : takes step.1 with
      | true => simp [htakes, h, ih]
      | false => simp [htakes]

theorem takes_of_mem (h : step ∈ rest.takeWhile fun step => takes step.1) : takes step.1 = true :=
  @List.mem_takeWhile_imp _ (fun step : ω × α => takes step.1) _ _ h

/-- What a loop leaves begins with an operator that it does not take. -/
theorem head?_dropWhile
    (h : step ∈ ((rest.dropWhile fun step => takes step.1).takeWhile
      fun step => takes' step.1).head?) :
    ¬takes step.1 = true := by
  have hhead := List.head?_dropWhile_not (fun step => takes step.1) rest
  generalize rest.dropWhile (fun step => takes step.1) = left at h hhead
  cases left with
  | nil => cases h
  | cons first more =>
      rw [List.takeWhile_cons] at h
      split at h
      · cases h
        simpa using hhead
      · cases h

/-- A loop has one place to end. -/
theorem Left.eq_ended (left : Left takes rest) : left = ended :=
  Subtype.ext left.property

end

-- ============================================================ climbing

section

variable {m : Type → Type} [Monad m] [LawfulMonad m] (join : α → ω → α → m α)

mutual

/-- The outer loop joins what it takes as it is grouped. -/
theorem climbFrom_eq (min : Nat) (lhs : α) : (rest : List (ω × α)) →
    climbFrom precedence join min lhs rest = (fun v => (v, .ended)) <$>
      (ofChain precedence lhs
        (rest.takeWhile fun step => reaches precedence min step.1)).combine join
  | [] => by
    rw [climbFrom, List.takeWhile_nil]
    exact (map_pure (fun v => (v, Left.ended)) lhs).symm
  | (op, rhs) :: rest => by
    rw [climbFrom]
    split
    · rename_i h
      have hloop (v : α) := climbFrom_eq min v
        (rest.dropWhile fun step => exceeds precedence (precedence op) step.1)
      rw [climbOver_eq (precedence op) rhs rest, List.takeWhile_cons, if_pos h,
        takeWhile_append (reaches_of_exceeds h), combine_cons]
      · simp only [← bind_pure_comp, bind_assoc, pure_bind, Left.ended, hloop,
          Left.eq_ended (.next _ _)]
      · exact fun _ hstep => exceeds_iff.mp (takes_of_mem hstep)
      · exact fun step hstep => Nat.not_lt.mp fun h => head?_dropWhile hstep (exceeds_iff.mpr h)
    · rename_i h
      rw [List.takeWhile_cons, if_neg h, Left.eq_ended (.stop _)]
      exact (map_pure (fun v => (v, Left.ended)) lhs).symm
termination_by rest => (rest.length, 0)
decreasing_by
  · exact Prod.Lex.left _ _ (Nat.lt_succ_of_le (List.dropWhile_sublist _).length_le)
  · exact Prod.Lex.left _ _ (Nat.lt_succ_self _)

/-- So does the inner loop. -/
theorem climbOver_eq (level : Nat) (rhs : α) : (rest : List (ω × α)) →
    climbOver precedence join level rhs rest = (fun v => (v, .ended)) <$>
      (ofChain precedence rhs
        (rest.takeWhile fun step => exceeds precedence level step.1)).combine join
  | [] => by
    rw [climbOver, List.takeWhile_nil]
    exact (map_pure (fun v => (v, Left.ended)) rhs).symm
  | (next, a) :: rest => by
    rw [climbOver]
    split
    · rename_i h
      have hloop (v : α) := climbOver_eq level v
        (((next, a) :: rest).dropWhile fun step => reaches precedence (precedence next) step.1)
      rw [climbFrom_eq (precedence next) rhs ((next, a) :: rest),
        takeWhile_append (exceeds_of_reaches h), combine_split join rhs (precedence next)]
      · simp only [← bind_pure_comp, bind_assoc, pure_bind, Left.ended, hloop,
          Left.eq_ended (.after _ _ _)]
      · exact fun _ hstep => reaches_iff.mp (takes_of_mem hstep)
      · exact fun step hstep => Nat.le_of_not_le fun h => head?_dropWhile hstep (reaches_iff.mpr h)
    · rename_i h
      rw [List.takeWhile_cons, if_neg h, Left.eq_ended (.stop _)]
      exact (map_pure (fun v => (v, Left.ended)) rhs).symm
termination_by rest => (rest.length, 1)
decreasing_by
  · exact Prod.Lex.left _ _ (Left.ended.length_lt (reaches_self precedence next))
  · exact Prod.Lex.right _ Nat.zero_lt_one

end

/-- Climbing joins a chain as it is grouped. -/
theorem climb_eq (start : α) (rest : List (ω × α)) :
    climb precedence join start rest = (ofChain precedence start rest).combine join := by
  have hall : rest.takeWhile (fun step => reaches precedence 0 step.1) = rest :=
    List.takeWhile_eq_self_iff.mpr fun step _ => reaches_iff.mpr (Nat.zero_le _)
  rw [climb, climbFrom_eq, hall, bind_map_left, bind_pure]

end

-- ====================================================== shunting yard

section

variable {m : Type → Type} [Monad m]

/-- Joins the two topmost operands. -/
def reduce (join : α → ω → α → m α) (op : ω) : List α → m (List α)
  | rhs :: lhs :: operands => return (← join lhs op rhs) :: operands
  | operands => return operands

/-- Takes the operators off the stack that bind at least as tightly as
`level`. -/
def unwind (precedence : ω → Nat) (join : α → ω → α → m α) (level : Nat) :
    List ω → List α → m (List ω × List α)
  | [], operands => return ([], operands)
  | top :: operators, operands =>
    if precedence top < level then return (top :: operators, operands)
    else do unwind precedence join level operators (← reduce join top operands)

/-- Goes through the chain with operators and operands on stacks, the
topmost first. In the end all operators are taken off. -/
def yard (precedence : ω → Nat) (join : α → ω → α → m α) :
    List (ω × α) → List ω → List α → m (List α)
  | [], operators, operands => return (← unwind precedence join 0 operators operands).2
  | (op, a) :: rest, operators, operands => do
    let (operators, operands) ← unwind precedence join (precedence op) operators operands
    yard precedence join rest (op :: operators) (a :: operands)

/-- The operands that are left when the chain has been joined with two
stacks. -/
def shuntingYard (precedence : ω → Nat) (join : α → ω → α → m α) (first : α)
    (rest : List (ω × α)) : m (List α) :=
  yard precedence join rest [] [first]

end

-- ------------------------------------------------------------ of trees

/-- The tree of a right edge: each operator has its left group, the
innermost first. -/
def close (t : Grouping ω α) (edge : List (Grouping ω α × ω)) : Grouping ω α :=
  edge.foldl (fun right node => .joined node.1 node.2 right) t

/-- An operator that binds tighter than the whole edge goes to the
innermost group. -/
theorem attach_close {edge : List (Grouping ω α × ω)}
    (h : ∀ node ∈ edge, precedence node.2 < precedence op) (t : Grouping ω α) :
    (t.close edge).attach precedence op a = (t.attach precedence op a).close edge := by
  induction edge generalizing t with
  | nil => rfl
  | cons node edge ih =>
      obtain ⟨hnode, hedge⟩ := List.forall_mem_cons.mp h
      refine (ih hedge _).trans ?_
      exact congrArg (close · edge) (if_pos hnode)

/-- Unwinding the edge makes no other tree, and what is left of it binds
less tightly than the operator that comes. -/
theorem unwind_edge {edge : List (Grouping ω α × ω)} (t : Grouping ω α) (level : Nat)
    (hedge : edge.Pairwise fun inner outer => precedence outer.2 < precedence inner.2)
    (hroot : ∀ top ∈ t.root?, level ≤ precedence top) :
    ∃ t' edge', unwind (m := Id) precedence joined level (edge.map Prod.snd)
        (t :: edge.map Prod.fst) = (edge'.map Prod.snd, t' :: edge'.map Prod.fst) ∧
      t'.close edge' = t.close edge ∧ edge' <:+ edge ∧
      (∀ node ∈ edge', precedence node.2 < level) ∧
      ∀ top ∈ t'.root?, level ≤ precedence top := by
  induction edge generalizing t with
  | nil => exact ⟨t, [], rfl, rfl, List.suffix_rfl, nofun, hroot⟩
  | cons node edge ih =>
      obtain ⟨hinner, hrest⟩ := List.pairwise_cons.mp hedge
      rw [List.map_cons, List.map_cons, unwind]
      split
      · rename_i hloose
        refine ⟨t, node :: edge, rfl, rfl, List.suffix_rfl, ?_, hroot⟩
        exact List.forall_mem_cons.mpr ⟨hloose, fun outer houter =>
          Nat.lt_trans (hinner outer houter) hloose⟩
      · rename_i htight
        have htop : ∀ top ∈ (joined node.1 node.2 t).root?, level ≤ precedence top := by
          rintro _ ⟨⟩
          exact Nat.not_lt.mp htight
        obtain ⟨t', edge', hunwind, hclose, hsuffix, hless, hroot'⟩ := ih _ hrest htop
        exact ⟨t', edge', hunwind, hclose, hsuffix.trans (List.suffix_cons _ _), hless, hroot'⟩

/-- The yard keeps the right edge of the grouping. -/
theorem yard_edge {edge : List (Grouping ω α × ω)}
    (hedge : edge.Pairwise fun inner outer => precedence outer.2 < precedence inner.2) (b : α) :
    yard (m := Id) precedence joined (rest.map fun step => (step.1, .operand step.2))
        (edge.map Prod.snd) (.operand b :: edge.map Prod.fst)
      = [(close (.operand b) edge).extend precedence rest] := by
  -- the induction is on the steps that are left; the edge is what the yard holds
  induction rest generalizing edge b with
  -- at the end everything is joined, since no operator binds weaker than the
  -- level zero
  | nil =>
      obtain ⟨t', edge', hunwind, hclose, -, hless, -⟩ :=
        unwind_edge (.operand b) 0 hedge nofun
      have hnil : edge' = [] :=
        List.eq_nil_iff_forall_not_mem.mpr fun node hnode => Nat.not_lt_zero _ (hless node hnode)
      subst hnil
      show (unwind (m := Id) precedence joined 0 _ _).2 = _
      rw [hunwind, ← hclose]
      rfl
  -- the next operator joins all that binds tighter, and becomes the new end of
  -- the edge
  | cons step rest ih =>
      obtain ⟨op, a⟩ := step
      obtain ⟨t', edge', hunwind, hclose, hsuffix, hless, hroot⟩ :=
        unwind_edge (.operand b) (precedence op) hedge nofun
      have hnext : ((t', op) :: edge').Pairwise
          fun inner outer => precedence outer.2 < precedence inner.2 :=
        List.pairwise_cons.mpr ⟨hless, hedge.sublist hsuffix.sublist⟩
      have hrest := ih hnext a
      -- which is just how a grouping takes a step
      have hattach : (close (.operand b) edge).attach precedence op a
          = close (.operand a) ((t', op) :: edge') := by
        rw [← hclose, attach_close hless, attach_of_root hroot]
        rfl
      show (let s := unwind (m := Id) precedence joined (precedence op) _ _
        yard (m := Id) precedence joined _ (op :: s.1) (.operand a :: s.2)) = _
      rw [hunwind]
      refine hrest.trans ?_
      rw [← hattach]
      rfl

-- ----------------------------------------------------------- of values

section

variable {m : Type → Type} [Monad m] [LawfulMonad m] (join : α → ω → α → m α)

/-- What the trees on a stack come to, the lowest first. -/
def values : List (Grouping ω α) → m (List α)
  | [] => return []
  | t :: trees => do
    let operands ← values trees
    return (← t.combine join) :: operands

/-- Reducing the values is taking the values of what is reduced. -/
theorem values_reduce (op : ω) (trees : List (Grouping ω α)) :
    values join trees >>= reduce join op = values join (reduce (m := Id) joined op trees) := by
  match trees with
  | [] => exact pure_bind _ _
  | [t] =>
      show _ = values join [t]
      simp only [values, bind_assoc, pure_bind, reduce]
  | r :: l :: trees =>
      show _ = values join (joined l op r :: trees)
      simp only [values, bind_assoc, pure_bind, reduce, combine]

/-- Unwinding the values is taking the values of what is unwound: the
induction is on the operators that are held. -/
theorem values_unwind (level : Nat) (operators : List ω) (trees : List (Grouping ω α)) :
    values join trees >>= unwind precedence join level operators =
      let s := unwind (m := Id) precedence joined level operators trees
      values join s.2 >>= fun operands => pure (s.1, operands) := by
  induction operators generalizing trees with
  | nil => rfl
  | cons top operators ih =>
      simp only [unwind]
      split
      · rfl
      · rw [← bind_assoc, values_reduce]
        exact ih _

/-- The shunting yard on values takes the values of the yard on groupings:
the induction is on the steps that are left. -/
theorem values_yard (precedence : ω → Nat) (rest : List (ω × α)) (operators : List ω)
    (trees : List (Grouping ω α)) :
    values join trees >>= yard precedence join rest operators
      = values join (yard (m := Id) precedence joined
        (rest.map fun step => (step.1, .operand step.2)) operators trees) := by
  induction rest generalizing operators trees with
  | nil =>
      simp only [yard, ← bind_assoc]
      rw [values_unwind]
      simp only [bind_assoc, pure_bind, bind_pure]
      rfl
  | cons step rest ih =>
      obtain ⟨op, a⟩ := step
      simp only [yard, ← bind_assoc]
      rw [values_unwind]
      simp only [bind_assoc, pure_bind]
      refine Eq.trans ?_ (ih _ (.operand a :: _))
      simp only [values, combine, bind_assoc, pure_bind]

/-- The yard joins a chain as it is grouped, and one operand is left. -/
theorem shuntingYard_eq (start : α) (rest : List (ω × α)) :
    shuntingYard precedence join start rest
      = do return [← (ofChain precedence start rest).combine join] := by
  have htree : yard (m := Id) precedence joined (rest.map fun step => (step.1, .operand step.2)) []
      [.operand start] = [ofChain precedence start rest] := yard_edge .nil start
  have hvalues := values_yard join precedence rest [] [.operand start]
  rw [htree] at hvalues
  simp only [values, combine, pure_bind] at hvalues
  exact hvalues

end

-- ===================================================== order of calls

variable {ε σ β γ : Type}

/-- Joins as before and notes the operator of each call. -/
def noting (join : α → ω → α → EStateM ε σ α) (lhs : α) (op : ω) (rhs : α) :
    EStateM ε (σ × List ω) α := fun s =>
  match join lhs op rhs s.1 with
  | .ok a s' => .ok a (s', s.2 ++ [op])
  | .error e s' => .error e (s', s.2 ++ [op])

/-- A run makes these calls in this order, or fails with the first of
them that fails; `noted` is the same run with its calls noted. -/
def CallsInOrder (join : α → ω → α → EStateM ε σ α) (calls : List ω) (run : EStateM ε σ β)
    (noted : EStateM ε (σ × List ω) β) : Prop :=
  ∀ s before,
    (∀ b s', run s = .ok b s' → noted (s, before) = .ok b (s', before ++ calls)) ∧
    (∀ e s', run s = .error e s' → ∃ done op undone lhs rhs s₁, calls = done ++ op :: undone ∧
      join lhs op rhs s₁ = .error e s' ∧
      noted (s, before) = .error e (s', before ++ done ++ [op]))

namespace CallsInOrder

variable {join : α → ω → α → EStateM ε σ α} {run : EStateM ε σ β} {rest : β → EStateM ε σ γ}
  {noted : EStateM ε (σ × List ω) β} {rest' : β → EStateM ε (σ × List ω) γ} {calls more : List ω}

/-- What joins nothing calls nothing. -/
theorem pure (b : β) : CallsInOrder join [] (Pure.pure b) (Pure.pure b) := by
  intro s before
  refine ⟨fun b s' h => ?_, nofun⟩
  cases h
  rw [List.append_nil]
  rfl

/-- Calls follow each other as the runs that make them do. -/
theorem bind (h : CallsInOrder join calls run noted)
    (hrest : ∀ b, CallsInOrder join more (rest b) (rest' b)) :
    CallsInOrder join (calls ++ more) (run >>= rest) (noted >>= rest') := by
  intro s before
  obtain ⟨hok, herror⟩ := h s before
  show (∀ c s', EStateM.bind run rest s = .ok c s' → EStateM.bind noted rest' _ = _) ∧
    (∀ e s', EStateM.bind run rest s = .error e s' → ∃ done op undone lhs rhs s₁, _ ∧ _ ∧
      EStateM.bind noted rest' _ = _)
  unfold EStateM.bind
  cases hrun : run s with
  | ok b s₁ =>
      obtain ⟨hok', herror'⟩ := hrest b s₁ (before ++ calls)
      simp only [hok b s₁ hrun]
      refine ⟨fun c s' hc => ?_, fun e s' he => ?_⟩
      · rw [hok' c s' hc, List.append_assoc]
      · obtain ⟨done, op, undone, lhs, rhs, s₂, rfl, hcall, hnoted⟩ := herror' e s' he
        refine ⟨calls ++ done, op, undone, lhs, rhs, s₂, ?_, hcall, ?_⟩
        · rw [List.append_assoc]
        · rw [hnoted, List.append_assoc before]
  | error f s₁ =>
      obtain ⟨done, op, undone, lhs, rhs, s₂, rfl, hcall, hnoted⟩ := herror f s₁ hrun
      simp only [hnoted]
      refine ⟨nofun, fun e s' he => ?_⟩
      cases he
      exact ⟨done, op, undone ++ more, lhs, rhs, s₂, by simp, hcall, rfl⟩

/-- A join is one call. -/
theorem call (lhs : α) (op : ω) (rhs : α) :
    CallsInOrder join [op] (join lhs op rhs) (noting join lhs op rhs) := by
  intro s before
  unfold noting
  cases hcall : join lhs op rhs s with
  | ok a s₁ =>
      refine ⟨fun b s' h => ?_, nofun⟩
      cases h
      rfl
  | error f s₁ =>
      refine ⟨nofun, fun e s' h => ?_⟩
      cases h
      exact ⟨[], op, [], lhs, rhs, s, rfl, hcall, by rw [List.append_nil]⟩

/-- Combining applies the operators from the innermost out and from the
left. -/
theorem combine (g : Grouping ω α) :
    CallsInOrder join g.calls (g.combine join) (g.combine (noting join)) := by
  induction g with
  | operand a => exact pure a
  | joined left op right ihl ihr =>
      rw [calls, List.append_assoc]
      exact ihl.bind fun lhs => ihr.bind fun rhs => call lhs op rhs

end CallsInOrder

/-- Climbing joins a chain as its one fitting grouping says: each
operator once, the groups on its sides before it, and no more after a
call that fails. The shunting yard does the same, with whatever state the
calls have. -/
theorem climbing_is_shunting_yard (precedence : ω → Nat) (start : α) (rest : List (ω × α)) :
    (∀ g : Grouping ω α, (g.first = start ∧ g.steps = rest ∧ g.Binds precedence) ↔
      g = ofChain precedence start rest) ∧
    (ofChain precedence start rest).calls.Perm (rest.map Prod.fst) ∧
    shuntingYard (m := Id) precedence joined (.operand start)
      (rest.map fun step => (step.1, .operand step.2)) = [ofChain precedence start rest] ∧
    ∀ join : α → ω → α → EStateM ε σ α,
      climb precedence join start rest = (ofChain precedence start rest).combine join ∧
      shuntingYard precedence join start rest
        = (do return [← climb precedence join start rest]) ∧
      CallsInOrder join (ofChain precedence start rest).calls (climb precedence join start rest)
        (climb precedence (noting join) start rest) := by
  refine ⟨fun g => eq_ofChain_iff, ?_, yard_edge .nil start, fun join => ⟨climb_eq join .., ?_, ?_⟩⟩
  -- the calls of a grouping are its operators
  · have hsteps : (ofChain precedence start rest).steps = rest := (eq_ofChain_iff.mpr rfl).2.1
    have hperm := calls_perm (ofChain precedence start rest)
    rwa [hsteps] at hperm
  -- both loops combine the same grouping, and combining makes its calls in order
  · rw [climb_eq, shuntingYard_eq]
  · rw [climb_eq, climb_eq]
    exact .combine _

end Grouping

end RelQuery
