/-
The parts of a typed tree by who runs them.

The code of a node runs that of its operands. Segments are invoked on
their own, and the bindings of a block are kept for the record, so
neither is among the operands. `own` follows the operands all the way
down: it lists the nodes whose code is part of the code of the tree.
Operands, bindings and the bodies of segments together are all that is
below a node (`forall_nodes_iff`).

Many steps of building only put nodes around trees that are there
already, or reorder them. `Wrap given made` says so: nothing has been
added but plain nodes, which neither load, copy, nor hold a segment, and
call nothing that looks at neighbouring rows.

A copy of a tree has the same nodes but for slots: node by node it is the
same once slots are taken away (`bare`). What depends neither on slots
nor on operands carries over (`everywhere_of_bare`), and so does the
type (`dataType_eq_of_bare`).
-/
import RelQuery.Node.Statement
import RelQuery.Proofs.Context.Note

namespace RelQuery

namespace Node

/-- The direct parts whose code is run by that of the node. -/
def operands : Node → List Node
  | .literal _ | .variable .. | .currentRow _ | .code _ => []
  | .inlined _ value => [value]
  | .block _ body => [body]
  | .call _ args _ _ | .variadic _ args _ | .function _ args _ _ | .selector _ args
  | .row _ args | .table _ args => args
  | .fold _ _ arg _ => [arg]
  | .project base _ _ | .rename base _ _ | .transform base _ _ _ _ _ | .restrict base _
  | .order base _ | .component base _ _ | .tupleField base _ _ => [base]

/-- The values that a block binds. -/
def bound : Node → List Node
  | .block bindings _ => bindings.map (·.value)
  | _ => []

/-- The segments of a node itself. -/
def segments : Node → List Segment
  | .restrict _ predicate => [predicate]
  | .transform _ _ keys fields _ _ => keys ++ fields
  | .order _ keys => keys
  | .code segment => [segment]
  | _ => []

/-- The operands, the bound values and the bodies of the segments. -/
def parts (n : Node) : List Node :=
  n.operands ++ (n.bound ++ n.segments.map (·.body))

/-- Recursion goes down into the bodies of segments. -/
theorem sizeOf_body (s : Segment) : sizeOf s.body < sizeOf s := by
  cases s
  simp only [Segment.mk.sizeOf_spec]
  omega

/-- Recursion goes down into operands. -/
theorem sizeOf_operand {n m : Node} (h : m ∈ n.operands) : sizeOf m < sizeOf n := by
  cases n with
  | call _ args _ _ | function _ args _ _ | variadic _ args _ | selector _ args | row _ args
  | table _ args =>
      have hargs : sizeOf m < sizeOf args := List.sizeOf_lt_of_mem h
      simp only [call.sizeOf_spec, function.sizeOf_spec, variadic.sizeOf_spec, selector.sizeOf_spec,
        row.sizeOf_spec, table.sizeOf_spec]
      omega
  | inlined _ base | block _ base | fold _ _ base _ | project base _ _ | rename base _ _
  | transform base _ _ _ _ _ | restrict base _ | order base _ | component base _ _
  | tupleField base _ _ =>
      obtain rfl := List.mem_singleton.mp h
      simp only [inlined.sizeOf_spec, block.sizeOf_spec, fold.sizeOf_spec, project.sizeOf_spec,
        rename.sizeOf_spec, transform.sizeOf_spec, restrict.sizeOf_spec, order.sizeOf_spec,
        component.sizeOf_spec, tupleField.sizeOf_spec]
      omega
  | _ => exact absurd h List.not_mem_nil

/-- Recursion goes down into bound values. -/
theorem sizeOf_bound {n m : Node} (h : m ∈ n.bound) : sizeOf m < sizeOf n := by
  cases n with
  | block bindings body =>
      obtain ⟨⟨name, value⟩, hmem, rfl⟩ := List.mem_map.mp h
      have hbinding := List.sizeOf_lt_of_mem hmem
      simp only [BoundNode.mk.sizeOf_spec] at hbinding
      simp only [block.sizeOf_spec]
      omega
  | _ => exact absurd h List.not_mem_nil

/-- Recursion goes down into segments. -/
theorem sizeOf_segment {n : Node} {s : Segment} (h : s ∈ n.segments) : sizeOf s < sizeOf n := by
  cases n with
  | transform base kind keys fields accums type =>
      simp only [transform.sizeOf_spec]
      rcases List.mem_append.mp h with h | h
      · have hkey := List.sizeOf_lt_of_mem h
        omega
      · have hfield := List.sizeOf_lt_of_mem h
        omega
  | order base keys =>
      have hkey : sizeOf s < sizeOf keys := List.sizeOf_lt_of_mem h
      simp only [order.sizeOf_spec]
      omega
  | restrict base predicate =>
      obtain rfl := List.mem_singleton.mp h
      simp only [restrict.sizeOf_spec]
      omega
  | code segment =>
      obtain rfl := List.mem_singleton.mp h
      simp only [code.sizeOf_spec]
      omega
  | _ => exact absurd h List.not_mem_nil

/-- Recursion goes down into all parts. -/
theorem sizeOf_part {n m : Node} (h : m ∈ n.parts) : sizeOf m < sizeOf n := by
  rcases List.mem_append.mp h with h | h
  · exact sizeOf_operand h
  · rcases List.mem_append.mp h with h | h
    · exact sizeOf_bound h
    · obtain ⟨s, hs, rfl⟩ := List.mem_map.mp h
      exact Nat.lt_trans (sizeOf_body s) (sizeOf_segment hs)

/-- What a node has if its parts have it, all nodes have. -/
theorem parts_induction {P : Node → Prop} (step : ∀ n, (∀ m ∈ n.parts, P m) → P n)
    (n : Node) : P n :=
  step n fun m _ => parts_induction step m
termination_by sizeOf n
decreasing_by exact sizeOf_part ‹_›

/-- What a node has if its operands have it, all nodes have. -/
theorem operands_induction {P : Node → Prop} (step : ∀ n, (∀ m ∈ n.operands, P m) → P n)
    (n : Node) : P n :=
  parts_induction (fun n ih => step n fun m hm => ih m (List.mem_append_left _ hm)) n

mutual

/-- The node and all nodes whose code is part of its code. -/
def own : Node → List Node
  | .inlined name value => .inlined name value :: value.own
  | .block bindings body => .block bindings body :: body.own
  | .call link args type slot => .call link args type slot :: allOwn args
  | .variadic link args type => .variadic link args type :: allOwn args
  | .function link args type slot => .function link args type slot :: allOwn args
  | .fold op slot arg type => .fold op slot arg type :: arg.own
  | .row heading values => .row heading values :: allOwn values
  | .table heading rows => .table heading rows :: allOwn rows
  | .selector user args => .selector user args :: allOwn args
  | .project base heading type => .project base heading type :: base.own
  | .rename base pairs type => .rename base pairs type :: base.own
  | .transform base kind keys fields accums type =>
    .transform base kind keys fields accums type :: base.own
  | .restrict base predicate => .restrict base predicate :: base.own
  | .order base keys => .order base keys :: base.own
  | .component base name type => .component base name type :: base.own
  | .tupleField base name type => .tupleField base name type :: base.own
  | .literal value => [.literal value]
  | .variable name source type => [.variable name source type]
  | .currentRow type => [.currentRow type]
  | .code segment => [.code segment]

def allOwn : List Node → List Node
  | [] => []
  | node :: rest => node.own ++ allOwn rest

end

/-- The own nodes of several trees are those of each, one after another. -/
theorem allOwn_eq (nodes : List Node) : allOwn nodes = nodes.flatMap own := by
  induction nodes with
  | nil => rfl
  | cons node rest ih => rw [allOwn, ih, List.flatMap_cons]

theorem own_eq (n : Node) : n.own = n :: n.operands.flatMap own := by
  cases n <;> simp [own, operands, allOwn_eq]

/-- Some node of the trees' own code passes a test. -/
def anyOwn (p : Node → Bool) (nodes : List Node) : Bool :=
  nodes.any fun n => n.own.any p

theorem any_own (p : Node → Bool) (n : Node) : n.own.any p = (p n || anyOwn p n.operands) := by
  rw [own_eq, List.any_cons, List.any_flatMap, anyOwn]

-- ============================================== what is below a node

/-- Everything below several nodes is below one of them. -/
theorem nodesAll_eq (nodes : List Node) : nodesAll nodes = nodes.flatMap Node.nodes := by
  induction nodes with
  | nil => rfl
  | cons node rest ih => rw [nodesAll, ih, List.flatMap_cons]

/-- What is below segments is below their bodies. -/
theorem segmentNodes_eq (segments : List Segment) :
    segmentNodes segments = nodesAll (segments.map (·.body)) := by
  induction segments with
  | nil => rfl
  | cons segment rest ih =>
      obtain ⟨name, kind, accums, flags, lookup, body⟩ := segment
      rw [segmentNodes, List.map_cons, nodesAll, ih]

/-- What is below bindings is below their values. -/
theorem boundNodes_eq (bindings : List BoundNode) :
    boundNodes bindings = nodesAll (bindings.map (·.value)) := by
  induction bindings with
  | nil => rfl
  | cons binding rest ih =>
      obtain ⟨name, value⟩ := binding
      rw [boundNodes, List.map_cons, nodesAll, ih]

/-- Everything below a node is below an operand, a bound value or the
body of a segment. -/
theorem mem_nodes_iff {n m : Node} : m ∈ n.nodes ↔ m = n ∨ (∃ k ∈ n.operands, m ∈ k.nodes) ∨
    (∃ k ∈ n.bound, m ∈ k.nodes) ∨ ∃ s ∈ n.segments, m ∈ s.body.nodes := by
  cases n with
  | restrict base predicate =>
      obtain ⟨name, kind, accums, flags, lookup, body⟩ := predicate
      simp [nodes, operands, bound, segments]
  | code segment =>
      obtain ⟨name, kind, accums, flags, lookup, body⟩ := segment
      simp [nodes, operands, bound, segments]
  | block bindings body =>
      simp [nodes, operands, bound, segments, boundNodes_eq, nodesAll_eq, or_comm]
  | transform base kind keys fields accums type =>
      simp only [nodes, operands, bound, segments, nodesAll_eq, segmentNodes_eq]
      grind
  | _ => simp [nodes, operands, bound, segments, nodesAll_eq, segmentNodes_eq]

/-- A node is the root or below a part. -/
theorem mem_nodes_parts {n m : Node} : m ∈ n.nodes ↔ m = n ∨ ∃ k ∈ n.parts, m ∈ k.nodes := by
  rw [mem_nodes_iff]
  simp only [parts, List.mem_append, List.mem_map]
  grind

/-- What is below something below a tree is below the tree. -/
theorem mem_nodes_trans {n m k : Node} (hm : m ∈ n.nodes) (hk : k ∈ m.nodes) : k ∈ n.nodes := by
  induction n using parts_induction with
  | step n ih =>
  rcases mem_nodes_parts.mp hm with rfl | ⟨part, hpart, hm⟩
  · exact hk
  · exact mem_nodes_parts.mpr (.inr ⟨part, hpart, ih part hpart hm⟩)

/-- The code of a node is among all that is below it. -/
theorem mem_nodes_of_own {n m : Node} (h : m ∈ n.own) : m ∈ n.nodes := by
  induction n using operands_induction with
  | step n ih =>
  rw [own_eq] at h
  rcases List.mem_cons.mp h with rfl | h
  · exact mem_nodes_iff.mpr (.inl rfl)
  · obtain ⟨k, hk, hm⟩ := List.mem_flatMap.mp h
    exact mem_nodes_iff.mpr (.inr (.inl ⟨k, hk, ih k hk hm⟩))

/-- All nodes of the tree have a property. -/
def Everywhere (P : Node → Prop) (n : Node) : Prop :=
  ∀ m ∈ n.nodes, P m

/-- A property holds everywhere if it does at the root and everywhere in
operands, bindings and segments. -/
theorem everywhere_iff {P : Node → Prop} {n : Node} : n.Everywhere P ↔ P n ∧
    (∀ k ∈ n.operands, k.Everywhere P) ∧ (∀ k ∈ n.bound, k.Everywhere P) ∧
    ∀ s ∈ n.segments, s.body.Everywhere P := by
  unfold Everywhere
  simp only [mem_nodes_iff (n := n)]
  grind

-- ======================================================= plain nodes

/-- A node that loads and copies nothing, holds no segment and looks at
no neighbouring rows. -/
def IsPlain : Node → Prop
  | .literal _ | .row .. | .table .. | .selector .. | .component .. | .tupleField .. => True
  | .variadic link _ _ => link.windowed = false
  | _ => False

theorem IsPlain.bound_eq {n : Node} (h : n.IsPlain) : n.bound = [] := by
  cases n <;> first | rfl | cases h

theorem IsPlain.segments_eq {n : Node} (h : n.IsPlain) : n.segments = [] := by
  cases n <;> first | rfl | cases h

/-- The trees have been reordered, plain nodes put around them, and some
literals left out. -/
inductive Wrap : List Node → List Node → Prop
  | perm {xs ys : List Node} (h : xs.Perm ys) : Wrap xs ys
  | node {n : Node} (h : n.IsPlain) : Wrap n.operands [n]
  /-- A literal is left out. -/
  | drop (v : Value) : Wrap [.literal v] []
  | append {xs ys xs' ys' : List Node} (h : Wrap xs xs') (h' : Wrap ys ys') :
      Wrap (xs ++ ys) (xs' ++ ys')
  | trans {xs ys zs : List Node} (h : Wrap xs ys) (h' : Wrap ys zs) : Wrap xs zs

theorem Wrap.refl (nodes : List Node) : Wrap nodes nodes :=
  .perm (.refl nodes)

/-- All nodes of all the trees have a property. -/
def AllHave (P : Node → Prop) (nodes : List Node) : Prop :=
  ∀ n ∈ nodes, n.Everywhere P

section

variable {P : Node → Prop} {given made : List Node} {n : Node}

theorem allHave_nil : AllHave P [] :=
  fun _ h => absurd h List.not_mem_nil

/-- One tree has it if it holds everywhere in it. -/
theorem allHave_singleton : AllHave P [n] ↔ n.Everywhere P :=
  List.forall_mem_singleton

/-- A node that binds nothing and holds no segment. -/
theorem everywhere_of_operands (hbound : n.bound = []) (hsegments : n.segments = []) (hn : P n)
    (h : AllHave P n.operands) : n.Everywhere P := by
  rw [everywhere_iff, hbound, hsegments]
  exact ⟨hn, h, fun _ h => absurd h List.not_mem_nil, fun _ h => absurd h List.not_mem_nil⟩

/-- What plain nodes have anyway holds of the trees made if it did of those
given. -/
theorem Wrap.allHave (hplain : ∀ n : Node, n.IsPlain → P n) (h : Wrap given made)
    (hg : AllHave P given) : AllHave P made := by
  induction h with
  | perm h => exact fun n hn => hg n (h.mem_iff.mpr hn)
  | node h =>
      exact allHave_singleton.mpr (everywhere_of_operands h.bound_eq h.segments_eq (hplain _ h) hg)
  | drop v => exact allHave_nil
  | append _ _ ih ih' =>
      obtain ⟨hx, hy⟩ := List.forall_mem_append.mp hg
      exact List.forall_mem_append.mpr ⟨ih hx, ih' hy⟩
  | trans _ _ ih ih' => exact ih' (ih hg)

end

-- ============================================================ copies

/-- The node without its operands and its slots. -/
def bare : Node → Node
  | .inlined name _ => .inlined name (.literal .void)
  | .block bindings _ => .block bindings (.literal .void)
  | .call link _ type _ => .call link [] type none
  | .variadic link _ type => .variadic link [] type
  | .function link _ type _ => .function link [] type none
  | .fold op _ _ type => .fold op 0 (.literal .void) type
  | .row heading _ => .row heading []
  | .table heading _ => .table heading []
  | .selector user _ => .selector user []
  | .project _ heading type => .project (.literal .void) heading type
  | .rename _ pairs type => .rename (.literal .void) pairs type
  | .transform _ kind keys fields accums type =>
    .transform (.literal .void) kind keys fields accums type
  | .restrict _ predicate => .restrict (.literal .void) predicate
  | .order _ keys => .order (.literal .void) keys
  | .component _ name type => .component (.literal .void) name type
  | .tupleField _ name type => .tupleField (.literal .void) name type
  | n => n

/-- The node with other operands in the place of its own. -/
def withOperands : Node → List Node → Node
  | .inlined name value, ns => .inlined name (ns.headD value)
  | .block bindings body, ns => .block bindings (ns.headD body)
  | .call link _ type slot, ns => .call link ns type slot
  | .variadic link _ type, ns => .variadic link ns type
  | .function link _ type slot, ns => .function link ns type slot
  | .fold op slot arg type, ns => .fold op slot (ns.headD arg) type
  | .row heading _, ns => .row heading ns
  | .table heading _, ns => .table heading ns
  | .selector user _, ns => .selector user ns
  | .project base heading type, ns => .project (ns.headD base) heading type
  | .rename base pairs type, ns => .rename (ns.headD base) pairs type
  | .transform base kind keys fields accums type, ns =>
    .transform (ns.headD base) kind keys fields accums type
  | .restrict base predicate, ns => .restrict (ns.headD base) predicate
  | .order base keys, ns => .order (ns.headD base) keys
  | .component base name type, ns => .component (ns.headD base) name type
  | .tupleField base name type, ns => .tupleField (ns.headD base) name type
  | n, _ => n

/-- A node with other operands differs in these only, if there are as many. -/
theorem withOperands_spec {n : Node} {ns : List Node} (h : ns.length = n.operands.length) :
    (n.withOperands ns).operands = ns ∧ (n.withOperands ns).bare = n.bare := by
  cases n <;> simp only [operands, List.length_singleton, List.length_nil] at h
  all_goals first
    | exact ⟨rfl, rfl⟩
    | (obtain ⟨m, rfl⟩ := List.length_eq_one_iff.mp h; exact ⟨rfl, rfl⟩)
    | (obtain rfl := List.length_eq_zero_iff.mp h; exact ⟨rfl, rfl⟩)

theorem bound_bare (n : Node) : n.bare.bound = n.bound := by
  cases n <;> rfl

theorem segments_bare (n : Node) : n.bare.segments = n.segments := by
  cases n <;> rfl

/-- The type of the node is that of its operand. -/
def passesType : Node → Bool
  | .inlined .. | .block .. | .restrict .. | .order .. => true
  | _ => false

/-- The type of a node is that of its one operand, or it does not depend on
operands. -/
theorem dataType_cases (n : Node) :
    (n.bare.passesType = true ∧ ∃ k, n.operands = [k] ∧ n.dataType = k.dataType) ∨
    (n.bare.passesType = false ∧ n.dataType = n.bare.dataType) := by
  cases n with
  | inlined _ k | block _ k | restrict k _ | order k _ => exact .inl ⟨rfl, k, rfl, rfl⟩
  | _ => exact .inr ⟨rfl, rfl⟩

/-- A node around operands of the same types has the same type. -/
theorem dataType_eq_of_bare {n n' : Node} (hbare : n'.bare = n.bare)
    (hoperands : List.Forall₂ (fun m m' => m'.dataType = m.dataType) n.operands n'.operands) :
    n'.dataType = n.dataType := by
  rcases n.dataType_cases with ⟨hpasses, k, hk, htype⟩ | ⟨hown, htype⟩
  · rcases n'.dataType_cases with ⟨-, k', hk', htype'⟩ | ⟨hown', -⟩
    · rw [hk, hk'] at hoperands
      cases hoperands with
      | cons hsame _ => rw [htype', hsame, htype]
    · rw [hbare, hpasses] at hown'
      cases hown'
  · rcases n'.dataType_cases with ⟨hpasses', -⟩ | ⟨-, htype'⟩
    · rw [hbare, hown] at hpasses'
      cases hpasses'
    · rw [htype', hbare, htype]

/-- A copy has as many operands as the value and differs from it in
them and in its slots only. What such a change of a node keeps holds
throughout a copy if it does throughout the value. -/
theorem everywhere_of_copy {P : Node → Prop} {n n' : Node}
    (hP : n'.bare = n.bare → n'.operands.length = n.operands.length → P n → P n')
    (hbare : n'.bare = n.bare)
    (hoperands : List.Forall₂ (fun m m' => m.Everywhere P → m'.Everywhere P) n.operands n'.operands)
    (h : n.Everywhere P) : n'.Everywhere P := by
  rw [everywhere_iff] at h ⊢
  obtain ⟨hn, hops, hbound, hsegments⟩ := h
  rw [← bound_bare, hbare, bound_bare, ← segments_bare, hbare, segments_bare]
  refine ⟨hP hbare hoperands.length_eq.symm hn, fun m' hm' => ?_, hbound, hsegments⟩
  obtain ⟨m, hm, hrel⟩ := Scopes.forall₂_mem_right hoperands hm'
  exact hrel (hops m hm)

/-- What looks at neither operands nor slots holds throughout a copy if
it does throughout the value. -/
theorem everywhere_of_bare {P : Node → Prop} (hP : ∀ n : Node, P n.bare ↔ P n) {n n' : Node}
    (hbare : n'.bare = n.bare)
    (hoperands : List.Forall₂ (fun m m' => m.Everywhere P → m'.Everywhere P) n.operands n'.operands)
    (h : n.Everywhere P) : n'.Everywhere P := by
  refine everywhere_of_copy (fun hbare _ hn => ?_) hbare hoperands h
  rw [← hP, hbare, hP]
  exact hn

end Node

end RelQuery
