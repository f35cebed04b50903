/-
Typed trees whose types meet a standard.

Most nodes state their type; a copy, a block, a restriction and an
ordering have that of an operand. In a tree in which every stated type,
every heading and all that segments read meet the standard, so does the
type of every node.

The same walk over building that finds this of types also finds three
facts that code depends on: a literal is one word, a literal time is one
that the standard allows, and a call with further arguments has all
those before them. They are kept beside the types (`Node.Meets`).
-/
import RelQuery.Proofs.Code.Fault
import RelQuery.Proofs.Type.Standard

namespace RelQuery

variable {S : Standard}

namespace Node

/-- The type that a node states; the others have that of an operand. -/
def stated? : Node → Option DataType
  | .inlined .. | .block .. | .restrict .. | .order .. => none
  | n => some n.dataType

/-- The arguments that come before the further ones of a call. -/
def fixed : Node → Nat
  | .variadic link _ _ => link.arity
  | _ => 0

/-- What a node states itself meets the standard, a literal is one word,
and a call with further arguments has all those before them. -/
structure Meets (S : Standard) (n : Node) : Prop where
  stated : ∀ t ∈ n.stated?, S.Allows t
  headings : ∀ h ∈ n.headings, S.AllowsHeading h
  literal : ∀ v, n = .literal v → v.isScalar = true
  time : ∀ m, n = .literal (.time m) → S.AllowsTime m
  fixed : n.fixed ≤ n.operands.length

/-- Of the operands only the number is looked at, and slots are not. -/
theorem Meets.copy {n n' : Node} (h : n.Meets S) (hbare : n'.bare = n.bare)
    (hlength : n'.operands.length = n.operands.length) : n'.Meets S := by
  have hstated (m : Node) : m.bare.stated? = m.stated? := by cases m <;> rfl
  have hheadings (m : Node) : m.bare.headings = m.headings := by cases m <;> rfl
  have hliteral (m : Node) (v : Value) : m.bare = .literal v ↔ m = .literal v := by
    cases m <;> simp [bare]
  have hfixed (m : Node) : m.bare.fixed = m.fixed := by cases m <;> rfl
  refine ⟨?_, ?_, fun v hv => ?_, fun m hm => ?_, ?_⟩
  · rw [← hstated, hbare, hstated]
    exact h.stated
  · rw [← hheadings, hbare, hheadings]
    exact h.headings
  · rw [← hliteral, hbare, hliteral] at hv
    exact h.literal v hv
  · rw [← hliteral, hbare, hliteral] at hm
    exact h.time m hm
  · rw [← hfixed, hbare, hfixed, hlength]
    exact h.fixed

/-- A tree that meets the standard has a type that does. -/
theorem Everywhere.allows_dataType {n : Node} (h : n.Everywhere (Meets S)) :
    S.Allows n.dataType := by
  induction n using operands_induction with
  | step n ih =>
  obtain ⟨hn, hoperands, -, -⟩ := everywhere_iff.mp h
  have hoperand (m : Node) (hm : m ∈ n.operands) := ih m hm (hoperands m hm)
  cases n with
  | inlined name value => exact hoperand value List.mem_cons_self
  | block bindings body => exact hoperand body List.mem_cons_self
  | restrict base predicate => exact hoperand base List.mem_cons_self
  | order base keys => exact hoperand base List.mem_cons_self
  | _ => exact hn.stated _ rfl

theorem AllHave.allow_dataTypes {nodes : List Node} (h : AllHave (Meets S) nodes) :
    ∀ t ∈ nodes.map dataType, S.Allows t :=
  List.forall_mem_map.mpr fun n hn => (h n hn).allows_dataType

/-- A tree whose root states its type and holds neither segments nor a
literal. -/
theorem everywhere_of_headings {n : Node} (htype : S.Allows n.dataType)
    (hheadings : ∀ heading ∈ n.headings, S.AllowsHeading heading)
    (hbound : n.bound = []) (hsegments : n.segments = []) (hliteral : ∀ v, n ≠ .literal v)
    (hfixed : n.fixed ≤ n.operands.length) (hoperands : AllHave (Meets S) n.operands) :
    n.Everywhere (Meets S) := by
  refine everywhere_of_operands hbound hsegments
    ⟨?_, hheadings, ?_, fun m hm => absurd hm (hliteral _), hfixed⟩ hoperands
  · intro t ht
    cases n <;> cases ht <;> exact htype
  · exact fun v hv => absurd hv (hliteral v)

/-- A tree whose root holds no headings either. -/
theorem everywhere_of_type {n : Node} (htype : S.Allows n.dataType) (hheadings : n.headings = [])
    (hbound : n.bound = []) (hsegments : n.segments = []) (hliteral : ∀ v, n ≠ .literal v)
    (hfixed : n.fixed ≤ n.operands.length) (hoperands : AllHave (Meets S) n.operands) :
    n.Everywhere (Meets S) := by
  refine everywhere_of_headings htype ?_ hbound hsegments hliteral hfixed hoperands
  rw [hheadings]
  exact fun _ h => absurd h List.not_mem_nil

/-- A literal is a tree of its own. -/
theorem everywhere_literal {v : Value} (h : v.isScalar = true)
    (htime : ∀ m, v = .time m → S.AllowsTime m) : (literal v).Everywhere (Meets S) := by
  refine everywhere_of_operands rfl rfl ⟨?_, ?_, ?_, ?_, Nat.zero_le _⟩ allHave_nil
  · rintro _ ⟨⟩
    cases v with
    | bool _ | number _ | text _ | time _ => exact S.plain rfl rfl
    | _ => cases h
  · exact fun _ h => absurd h List.not_mem_nil
  · rintro _ ⟨⟩
    exact h
  · rintro m ⟨⟩
    exact htime m rfl

theorem everywhere_variable {name : String} {source : VariableSource} {type : DataType}
    (h : S.Allows type) : (Node.variable name source type).Everywhere (Meets S) :=
  everywhere_of_type h rfl rfl rfl nofun (Nat.zero_le _) allHave_nil

/-- A row or table, which holds its heading. -/
theorem everywhere_of_heading {n : Node} {heading : Heading} (htype : S.Allows n.dataType)
    (hheadings : n.headings = [heading]) (hheading : S.AllowsHeading heading)
    (hbound : n.bound = []) (hsegments : n.segments = []) (hliteral : ∀ v, n ≠ .literal v)
    (hfixed : n.fixed ≤ n.operands.length) (hoperands : AllHave (Meets S) n.operands) :
    n.Everywhere (Meets S) := by
  refine everywhere_of_headings htype ?_ hbound hsegments hliteral hfixed hoperands
  rw [hheadings]
  exact List.forall_mem_singleton.mpr hheading

theorem everywhere_row {heading : Heading} {values : List Node} (h : S.AllowsHeading heading)
    (hvalues : AllHave (Meets S) values) : (row heading values).Everywhere (Meets S) :=
  everywhere_of_heading (S.tuple.mpr h) rfl h rfl rfl nofun (Nat.zero_le _) hvalues

theorem everywhere_table {heading : Heading} {rows : List Node} (h : S.AllowsHeading heading)
    (hrows : AllHave (Meets S) rows) : (table heading rows).Everywhere (Meets S) :=
  everywhere_of_heading (S.relation.mpr h) rfl h rfl rfl nofun (Nat.zero_le _) hrows

end Node

/-- What a segment reads and computes meets the standard. -/
structure Segment.Meets (S : Standard) (s : Segment) : Prop where
  lookup : S.AllowsHeading s.lookup
  body : s.body.Everywhere (Node.Meets S)

/-- A load of a column. -/
theorem Segment.meets_load (name : String) {type : DataType} (h : S.Allows type) :
    (Segment.load name type).Meets S where
  lookup := Standard.append S.nil (c := ⟨name, type⟩) h rfl
  body := Node.everywhere_variable h

/-- A node that computes with segments, all of them what they should
be. -/
theorem Node.everywhere_of_segments {n : Node} (hstated : ∀ t ∈ n.stated?, S.Allows t)
    (hheadings : n.headings = n.segments.map (·.lookup)) (hbound : n.bound = [])
    (hliteral : ∀ v, n ≠ .literal v) (hfixed : n.fixed ≤ n.operands.length)
    (hoperands : AllHave (Meets S) n.operands) (hsegments : ∀ s ∈ n.segments, s.Meets S) :
    n.Everywhere (Meets S) := by
  rw [everywhere_iff, hbound]
  refine ⟨⟨hstated, ?_, fun v hv => absurd hv (hliteral v), fun m hm => absurd hm (hliteral _),
    hfixed⟩, hoperands,
    fun _ h => absurd h List.not_mem_nil, fun s hs => (hsegments s hs).body⟩
  rw [hheadings]
  exact List.forall_mem_map.mpr fun s hs => (hsegments s hs).lookup

end RelQuery
