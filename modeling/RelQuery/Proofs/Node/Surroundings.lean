/-
What stands around the nodes of a typed tree.

A name is given its meaning by what encloses it: the bindings of blocks,
the rows that segments run over, the parameters of a definition. All of
this can be read off the tree. `Surroundings` lists it for one place,
innermost first, and says what a name means there; a node hands its
surroundings down to its operands, to the values that it binds and to
the bodies of its segments.

A use of a block binding holds a copy of the bound value. What the copy
says is meant as it was where the name was bound, so the copy stands
there and not where the name is used (`Surroundings.valueAround`). A
value is therefore looked at in one and the same place however often it
is copied.

`OwnAt` follows the operands only and `StandsIn` everything below a node.
They list the same nodes as `Node.own` and `Node.nodes`, each with the
place where it stands.
-/
import RelQuery.Proofs.Node.Own
import RelQuery.Proofs.Type.Equality

namespace RelQuery

/-- What stands around a place in a tree, innermost first. -/
inductive Surroundings where
  /-- Nothing but the statement. -/
  | statement
  /-- The rows that a segment runs over. -/
  | row (around : Surroundings) (heading : Heading)
  /-- The parameters of a definition. -/
  | parameters (around : Surroundings) (heading : Heading)
  /-- A name bound by a block. -/
  | bound (around : Surroundings) (name : String)

/-- What a name stands for at some place. -/
inductive Sense where
  | column (c : Column)
  | parameter (c : Column)
  /-- A value, which was bound in the given surroundings. -/
  | bound (around : Surroundings)

namespace Surroundings

/-- What a name means there. -/
def sense? : Surroundings → String → Option Sense
  | .statement, _ => none
  | .row around heading, name => ((Heading.get? heading name).map .column).or (around.sense? name)
  | .parameters around heading, name =>
    ((Heading.get? heading name).map .parameter).or (around.sense? name)
  | .bound around other, name => if other = name then some (.bound around) else around.sense? name

/-- The row at hand. -/
def row? : Surroundings → Option Heading
  | .statement => none
  | .row _ heading | .parameters _ heading => some heading
  | .bound around _ => around.row?

/-- A block inside the row at hand binds the name. -/
def hides : Surroundings → String → Bool
  | .statement, _ | .row .., _ | .parameters .., _ => false
  | .bound around other, name => other == name || around.hides name

/-- With names bound one after another. -/
def bindAll (Γ : Surroundings) (names : List String) : Surroundings :=
  names.foldl bound Γ

/-- Where the value was bound that a name stands for. -/
def valueAround (Γ : Surroundings) (name : String) : Surroundings :=
  match Γ.sense? name with
  | some (.bound around) => around
  | _ => Γ

/-- The values that a block binds, each with the names before it. -/
def values (Γ : Surroundings) : List BoundNode → List (Surroundings × Node)
  | [] => []
  | binding :: rest => (Γ, binding.value) :: (Γ.bound binding.name).values rest

variable {Γ : Surroundings} {c : Column} {heading : Heading} {name : String}

/-- A column of the row at hand is what its name means, unless a block
in between binds the name. -/
theorem sense?_of_row? (hrow : Γ.row? = some heading) (hc : Heading.get? heading name = some c)
    (hseen : Γ.hides name = false) :
    Γ.sense? name = some (.column c) ∨ Γ.sense? name = some (.parameter c) := by
  induction Γ with
  | statement => cases hrow
  | row around own _ =>
      cases hrow
      exact .inl (by rw [sense?, hc]; rfl)
  | parameters around own _ =>
      cases hrow
      exact .inr (by rw [sense?, hc]; rfl)
  | bound around other ih =>
      rw [hides, Bool.or_eq_false_iff, beq_eq_false_iff_ne] at hseen
      rw [sense?, if_neg hseen.1]
      exact ih hrow hseen.2

/-- Inside a row with the same columns and more, a row makes no
difference. -/
theorem sense?_row_row {inner : Heading} (h : heading.names ⊆ inner.names) :
    ((Γ.row heading).row inner).sense? = (Γ.row inner).sense? := by
  funext name
  rw [sense?, sense?, sense?]
  cases hinner : Heading.get? inner name with
  | some c => rfl
  | none =>
      have hnew := Heading.get?_eq_none.mp hinner
      have houter : Heading.get? heading name = none :=
        Heading.get?_eq_none.mpr fun hname => hnew (h hname)
      rw [houter]
      rfl

end Surroundings

namespace Node

variable {Γ Δ Θ : Surroundings} {n n' m : Node} {P : Surroundings → Node → Prop}

-- ==================================================== handing down

/-- Where the operands of a node stand. -/
def inside (Γ : Surroundings) : Node → Surroundings
  | .inlined name _ => Γ.valueAround name
  | .block bindings _ => Γ.bindAll (bindings.map (·.name))
  | _ => Γ

/-- The values that a node binds, and where they stand. -/
def boundIn (Γ : Surroundings) : Node → List (Surroundings × Node)
  | .block bindings _ => Γ.values bindings
  | _ => []

/-- What the segments of a node run over. -/
def ground? : Node → Option Node
  | .transform base _ _ _ _ _ | .restrict base _ | .order base _ => some base
  | _ => none

/-- The keys that a node orders its base by. -/
def keys : Node → List Segment
  | .transform _ _ keys _ _ _ | .order _ keys => keys
  | _ => []

/-- The columns of a node that is a relation, tuple or user value. -/
def heading (n : Node) : Heading :=
  n.dataType.heading?.getD []

/-- Where the bodies of a node's segments stand. -/
def rowAround (Γ : Surroundings) (n : Node) : Surroundings :=
  match n.ground? with
  | some base => Γ.row base.heading
  | none => Γ

/-- Among the code of `n`, which stands in `Γ`, the node `m` stands in
`Δ`. -/
inductive OwnAt : Surroundings → Node → Surroundings → Node → Prop
  | self (Γ : Surroundings) (n : Node) : OwnAt Γ n Γ n
  | operand {Γ Δ : Surroundings} {n k m : Node} (hk : k ∈ n.operands)
      (h : OwnAt (n.inside Γ) k Δ m) : OwnAt Γ n Δ m

/-- Below `n`, which stands in `Γ`, the node `m` stands in `Δ`. -/
inductive StandsIn : Surroundings → Node → Surroundings → Node → Prop
  | self (Γ : Surroundings) (n : Node) : StandsIn Γ n Γ n
  | operand {Γ Δ : Surroundings} {n k m : Node} (hk : k ∈ n.operands)
      (h : StandsIn (n.inside Γ) k Δ m) : StandsIn Γ n Δ m
  | bound {Γ Δ Θ : Surroundings} {n k m : Node} (hk : (Θ, k) ∈ n.boundIn Γ)
      (h : StandsIn Θ k Δ m) : StandsIn Γ n Δ m
  | segment {Γ Δ : Surroundings} {n m : Node} {s : Segment} (hs : s ∈ n.segments)
      (h : StandsIn (n.rowAround Γ) s.body Δ m) : StandsIn Γ n Δ m

/-- Every node below `n`, which stands in `Γ`, has a property where it
stands. -/
def EverywhereIn (P : Surroundings → Node → Prop) (Γ : Surroundings) (n : Node) : Prop :=
  ∀ Δ m, StandsIn Γ n Δ m → P Δ m

-- ============================================ the same nodes as before

/-- The values of a block are those bound in it, one behind the other. -/
theorem map_snd_values (bindings : List BoundNode) :
    (Γ.values bindings).map Prod.snd = bindings.map (·.value) := by
  induction bindings generalizing Γ with
  | nil => rfl
  | cons binding rest ih =>
      rw [Surroundings.values, List.map_cons, List.map_cons, ih]

/-- Bound values are handed surroundings, and stay the same. -/
theorem map_snd_boundIn (n : Node) : (n.boundIn Γ).map Prod.snd = n.bound := by
  cases n with
  | block bindings body => exact map_snd_values bindings
  | _ => rfl

theorem boundIn_eq_nil (h : n.bound = []) : n.boundIn Γ = [] := by
  rw [← map_snd_boundIn (Γ := Γ)] at h
  exact List.map_eq_nil_iff.mp h

/-- The code of a node, and where it stands. -/
theorem mem_own_iff_ownAt : m ∈ n.own ↔ ∃ Δ, OwnAt Γ n Δ m := by
  induction n using operands_induction generalizing Γ with
  | step n ih =>
  rw [own_eq, List.mem_cons, List.mem_flatMap]
  constructor
  · rintro (rfl | ⟨k, hk, hm⟩)
    · exact ⟨Γ, .self Γ m⟩
    · obtain ⟨Δ, h⟩ := (ih k hk).mp hm
      exact ⟨Δ, .operand hk h⟩
  · rintro ⟨Δ, h⟩
    cases h with
    | self => exact .inl rfl
    | operand hk h => exact .inr ⟨_, hk, (ih _ hk).mpr ⟨Δ, h⟩⟩

/-- All nodes below a node, and where they stand. -/
theorem mem_nodes_iff_standsIn : m ∈ n.nodes ↔ ∃ Δ, StandsIn Γ n Δ m := by
  -- the induction is on the parts; a node stands in its operands, bindings and
  -- segments
  induction n using parts_induction generalizing Γ with
  | step n ih =>
  have hpart {k : Node} (hk : k ∈ n.parts) {Θ : Surroundings} :
      m ∈ k.nodes ↔ ∃ Δ, StandsIn Θ k Δ m := ih k hk
  have hbound {k : Node} (hk : k ∈ n.bound) : k ∈ n.parts :=
    List.mem_append_right _ (List.mem_append_left _ hk)
  have hbody {s : Segment} (hs : s ∈ n.segments) : s.body ∈ n.parts :=
    List.mem_append_right _ (List.mem_append_right _ (List.mem_map_of_mem hs))
  rw [mem_nodes_iff]
  constructor
  -- each kind of part tells in which surroundings it stands
  · rintro (rfl | ⟨k, hk, hm⟩ | ⟨k, hk, hm⟩ | ⟨s, hs, hm⟩)
    · exact ⟨Γ, .self Γ m⟩
    · obtain ⟨Δ, h⟩ := (hpart (List.mem_append_left _ hk)).mp hm
      exact ⟨Δ, .operand hk h⟩
    · have hplaced := hk
      rw [← map_snd_boundIn (Γ := Γ)] at hplaced
      obtain ⟨p, hp, rfl⟩ := List.mem_map.mp hplaced
      obtain ⟨Δ, h⟩ := (hpart (hbound hk)).mp hm
      exact ⟨Δ, .bound hp h⟩
    · obtain ⟨Δ, h⟩ := (hpart (hbody hs)).mp hm
      exact ⟨Δ, .segment hs h⟩
  -- and what stands anywhere stands in a part
  · rintro ⟨Δ, h⟩
    cases h with
    | self => exact .inl rfl
    | operand hk h =>
        exact .inr (.inl ⟨_, hk, (hpart (List.mem_append_left _ hk)).mpr ⟨Δ, h⟩⟩)
    | bound hk h =>
        have hk' := List.mem_map_of_mem (f := Prod.snd) hk
        rw [map_snd_boundIn] at hk'
        exact .inr (.inr (.inl ⟨_, hk', (hpart (hbound hk')).mpr ⟨Δ, h⟩⟩))
    | segment hs h => exact .inr (.inr (.inr ⟨_, hs, (hpart (hbody hs)).mpr ⟨Δ, h⟩⟩))

/-- A property holds everywhere in a tree if it does at the root and
everywhere in its parts, each in the surroundings that the root hands down. -/
theorem everywhereIn_iff : n.EverywhereIn P Γ ↔ P Γ n ∧
    (∀ k ∈ n.operands, k.EverywhereIn P (n.inside Γ)) ∧
    (∀ p ∈ n.boundIn Γ, p.2.EverywhereIn P p.1) ∧
    ∀ s ∈ n.segments, s.body.EverywhereIn P (n.rowAround Γ) := by
  constructor
  · exact fun h => ⟨h Γ n (.self Γ n), fun k hk Δ m hm => h Δ m (.operand hk hm),
      fun p hp Δ m hm => h Δ m (.bound hp hm), fun s hs Δ m hm => h Δ m (.segment hs hm)⟩
  · rintro ⟨hn, hoperands, hbound, hsegments⟩ Δ m h
    cases h with
    | self => exact hn
    | operand hk h => exact hoperands _ hk Δ m h
    | bound hk h => exact hbound _ hk Δ m h
    | segment hs h => exact hsegments _ hs Δ m h

/-- A node that binds nothing, holds no segment and hands its
surroundings on. -/
theorem everywhereIn_of_operands (hbound : n.bound = []) (hsegments : n.segments = [])
    (hinside : n.inside Γ = Γ) (hn : P Γ n) (h : ∀ k ∈ n.operands, k.EverywhereIn P Γ) :
    n.EverywhereIn P Γ := by
  rw [everywhereIn_iff, boundIn_eq_nil hbound, hsegments, hinside]
  exact ⟨hn, h, fun _ h => absurd h List.not_mem_nil, fun _ h => absurd h List.not_mem_nil⟩

theorem IsPlain.inside_eq (h : n.IsPlain) : n.inside Γ = Γ := by
  cases n <;> first | rfl | cases h

theorem heading_eq (n : Node) {own : Heading} (h : n.dataType.heading? = some own) :
    n.heading = own := by
  rw [heading, h]
  rfl

-- ============================================================ copies

theorem inside_bare (n : Node) : n.bare.inside Γ = n.inside Γ := by
  cases n <;> rfl

theorem boundIn_bare (n : Node) : n.bare.boundIn Γ = n.boundIn Γ := by
  cases n <;> rfl

theorem keys_bare (n : Node) : n.bare.keys = n.keys := by
  cases n <;> rfl

/-- What the segments of a node run over is its only operand. -/
theorem operands_of_ground? {base : Node} (h : n.ground? = some base) : n.operands = [base] := by
  cases n <;> first | exact congrArg (fun b => [b]) (Option.some.inj h) | cases h

theorem ground?_bare (n : Node) : n.bare.ground?.isSome = n.ground?.isSome := by
  cases n <;> rfl

/-- The segments of a copy run over the copy of what those of the value
do. -/
theorem ground?_copy {R : Node → Node → Prop} (hbare : n'.bare = n.bare)
    (hoperands : List.Forall₂ R n.operands n'.operands) :
    Option.Rel R n.ground? n'.ground? := by
  have hsome : n'.ground?.isSome = n.ground?.isSome := by
    rw [← ground?_bare, hbare, ground?_bare]
  cases hbase : n.ground? with
  | none =>
      rw [hbase] at hsome
      have hnone := Option.isNone_iff_eq_none.mp (Option.isSome_eq_false_iff.mp hsome)
      rw [hnone]
      exact .none
  | some base =>
      rw [hbase] at hsome
      obtain ⟨base', hbase'⟩ := Option.isSome_iff_exists.mp hsome
      rw [operands_of_ground? hbase, operands_of_ground? hbase'] at hoperands
      rw [hbase']
      cases hoperands with
      | cons hrel _ => exact .some hrel

end Node

end RelQuery
