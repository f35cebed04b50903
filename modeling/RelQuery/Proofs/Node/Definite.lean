/-
Typed trees without placeholders.

A tree in which no node states a type with a placeholder, and no heading
or segment holds one, has a definite type at every node. Such a tree
passes the check of types that comes before code is made, and the
writing of its code is never stopped by a placeholder: that check looks
at node types only and skips supertypes and what segments read, so it
would not be enough for the latter.
-/
import RelQuery.Proofs.Node.Standard

namespace RelQuery

/-- No placeholder occurs in what a node states itself, and the node has
what its code needs. -/
abbrev Node.IsDefinite (n : Node) : Prop :=
  n.Meets .definite

/-- No placeholder occurs in what a segment reads or computes. -/
abbrev Segment.IsDefinite (s : Segment) : Prop :=
  s.Meets .definite

/-- A tree without placeholders has a definite type. -/
theorem Node.Everywhere.isDefinite_dataType {n : Node} (h : n.Everywhere IsDefinite) :
    n.dataType.isDefinite = true :=
  h.allows_dataType

/-- The trees of a definite node's parts, and its own data, can be
written unless a size is too large. -/
theorem Node.Meets.encodes {P : EncodeError → Prop} (hP : AllowsSizes P) {n : Node}
    (h : n.IsDefinite) : n.Encodes P where
  headings := fun heading hmem => Heading.encode_faults hP (.inl (h.headings heading hmem))
  literal := fun v hv => Value.encode_faults_scalar hP (h.literal v hv)

-- ======================================================= statements

namespace Statement

/-- No placeholder occurs in a statement. -/
def IsDefinite : Statement → Prop
  | .expression value | .assign _ value => value.Everywhere Node.IsDefinite
  | .define _ link body => link.IsDefinite ∧ body.IsDefinite
  | .typeDef user => (DataType.user user).isDefinite = true

variable {s : Statement}

/-- No placeholder occurs in the tree of a statement, -/
theorem IsDefinite.root (h : s.IsDefinite) : ∀ root ∈ s.root?, root.Everywhere Node.IsDefinite := by
  cases s with
  | expression value | assign name value =>
      rintro _ ⟨⟩
      exact h
  | define name link body =>
      rintro _ ⟨⟩
      exact h.2.body
  | typeDef user => exact fun _ h => nomatch h

/-- nor in the headings that it holds besides. -/
theorem IsDefinite.headings (h : s.IsDefinite) :
    ∀ heading ∈ s.headings, Heading.IsDefinite heading := by
  cases s with
  | expression value | assign name value => exact fun _ h => absurd h List.not_mem_nil
  | define name link body =>
      have hparams := Standard.foldl_insertNew Standard.definite.nil h.1.args
      exact List.forall_mem_cons.mpr ⟨hparams, List.forall_mem_singleton.mpr h.2.lookup⟩
  | typeDef user => exact List.forall_mem_singleton.mpr (DataType.isDefinite_user.mp h).1

/-- A statement without placeholders passes the check of types. -/
theorem IsDefinite.loose?_eq_none (h : s.IsDefinite) : s.loose? = none := by
  unfold loose?
  rw [Option.map_eq_none_iff, Option.bind_eq_none_iff]
  intro root hroot
  rw [List.find?_eq_none]
  intro n hn
  have hbelow : n.Everywhere Node.IsDefinite := fun m hm =>
    h.root root hroot m (Node.mem_nodes_trans hn hm)
  simp [DataType.isConcrete_of_isDefinite hbelow.isDefinite_dataType]

/-- Nor is its code stopped by one. -/
theorem IsDefinite.emit_ne_placeholder (h : s.IsDefinite) (t : DataType) :
    s.emit ≠ .error (.placeholder t) := by
  intro hemit
  have hP : AllowsSizes fun e => e ≠ .placeholder t := ⟨nofun, nofun, nofun⟩
  refine emit_faults hP ?_ (fun heading hmem => ?_) hemit rfl
  · exact fun root hroot n hn => (h.root root hroot n hn).encodes hP
  · exact Heading.encode_faults hP (.inl (h.headings heading hmem))

end Statement

end RelQuery
