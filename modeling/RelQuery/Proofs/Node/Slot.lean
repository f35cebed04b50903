/-
Accumulator slots of a typed tree.

A fold site is a call that folds, with the run of slots it owns. The
sites of a node are those that its own code runs: they are found
through copied values and the bases of relational nodes, but not inside
segments, whose code is invoked apart, nor in the bindings of a block,
for which there is no code.

A field list is partitioned if the slots of its fields are its own,
each owned once and none left over.
-/
import RelQuery.Proofs.Node.Own
import Mathlib.Data.List.Nodup
import Mathlib.Data.List.Flatten

namespace RelQuery

/-- A call that folds: its first slot and how many it owns. -/
structure FoldSite where
  first : Nat
  count : Nat
  deriving DecidableEq, Repr

/-- The slots that a site owns. -/
def FoldSite.slots (s : FoldSite) : List Nat :=
  List.range' s.first s.count

/-- The site of a call, if it folds. -/
def FoldSite.ofCall (slot : Option Nat) (count : Nat) : List FoldSite :=
  match slot with
  | some first => [⟨first, count⟩]
  | none => []

/-- No slot is owned twice, and exactly those below `total` are
owned. -/
structure FoldSite.Partition (sites : List FoldSite) (total : Nat) : Prop where
  disjoint : sites.Pairwise fun a b => a.slots.Disjoint b.slots
  covers : ∀ n, n < total ↔ ∃ s ∈ sites, n ∈ s.slots

/-- Sites that own the first slots up to a total own each of them once. -/
theorem FoldSite.Partition.of_perm {sites : List FoldSite} {total : Nat}
    (h : (sites.flatMap slots).Perm (List.range total)) : Partition sites total where
  disjoint := by
    have hnodup := h.nodup_iff.mpr List.nodup_range
    exact (List.nodup_flatMap.mp hnodup).2
  covers := by
    intro n
    rw [← List.mem_range, ← h.mem_iff, List.mem_flatMap]

namespace Node

mutual

/-- The fold sites that the code of a node runs. -/
def sites : Node → List FoldSite
  | .inlined _ value => value.sites
  | .block _ body => body.sites
  | .call link args _ slot | .function link args _ slot =>
    allSites args ++ FoldSite.ofCall slot link.accums
  | .fold _ slot arg _ => arg.sites ++ [⟨slot, 1⟩]
  | .variadic _ args _ | .selector _ args | .row _ args | .table _ args => allSites args
  | .project base _ _ | .rename base _ _ | .transform base _ _ _ _ _ | .restrict base _
  | .order base _ | .component base _ _ | .tupleField base _ _ => base.sites
  | .literal _ | .variable .. | .currentRow _ | .code _ => []

def allSites : List Node → List FoldSite
  | [] => []
  | node :: rest => node.sites ++ allSites rest

end

/-- The site of a node itself, if it folds. -/
def ownSites : Node → List FoldSite
  | .call link _ _ slot | .function link _ _ slot => FoldSite.ofCall slot link.accums
  | .fold _ slot _ _ => [⟨slot, 1⟩]
  | _ => []

/-- The slots that the code of a node uses. -/
def slots (node : Node) : List Nat :=
  node.sites.flatMap FoldSite.slots

/-- The slots that the code of nodes uses, one node after another. -/
def allSlots (nodes : List Node) : List Nat :=
  nodes.flatMap slots

/-- The sites of several nodes are those of each, one after another. -/
theorem allSites_eq (nodes : List Node) : allSites nodes = nodes.flatMap sites := by
  induction nodes with
  | nil => rfl
  | cons node rest ih => rw [allSites, ih, List.flatMap_cons]

theorem flatMap_allSites (nodes : List Node) :
    (allSites nodes).flatMap FoldSite.slots = allSlots nodes := by
  rw [allSites_eq, List.flatMap_assoc]
  rfl

/-- The sites of a node are those of its operands and its own. -/
theorem sites_eq (n : Node) : n.sites = allSites n.operands ++ n.ownSites := by
  cases n <;> simp [sites, allSites, operands, ownSites]

/-- The slots of a node are those of its operands and its own. -/
theorem slots_eq (n : Node) :
    n.slots = allSlots n.operands ++ n.ownSites.flatMap FoldSite.slots := by
  rw [slots, sites_eq, List.flatMap_append, flatMap_allSites]

theorem allSlots_append (xs ys : List Node) : allSlots (xs ++ ys) = allSlots xs ++ allSlots ys :=
  List.flatMap_append

/-- The order of the nodes does not matter for which slots there are. -/
theorem allSlots_perm {xs ys : List Node} (h : xs.Perm ys) :
    (allSlots xs).Perm (allSlots ys) :=
  h.flatMap_right _

@[simp] theorem allSlots_nil : allSlots [] = [] :=
  rfl

@[simp] theorem allSlots_cons (node : Node) (rest : List Node) :
    allSlots (node :: rest) = node.slots ++ allSlots rest :=
  List.flatMap_cons

/-- Plain nodes, reordering and literals left out change no slot. -/
theorem Wrap.slots_perm {given made : List Node} (h : Wrap given made) :
    (allSlots given).Perm (allSlots made) := by
  induction h with
  | perm h => exact allSlots_perm h
  | @node n h =>
      have hown : n.ownSites = [] := by cases n <;> first | rfl | cases h
      rw [allSlots_cons, slots_eq, hown, List.flatMap_nil, allSlots_nil, List.append_nil,
        List.append_nil]
  | drop v => exact .refl _
  | append _ _ ih ih' =>
      rw [allSlots_append, allSlots_append]
      exact ih.append ih'
  | trans _ _ ih ih' => exact ih.trans ih'

-- ========================================================= field lists

/-- The fields of a list own its slots, each field as many as it
says. -/
def IsPartitioned : Node → Prop
  | .transform _ _ _ fields accums _ =>
    FoldSite.Partition (fields.flatMap (·.body.sites)) accums ∧
      ∀ field ∈ fields, field.accums = field.body.slots.length
  | _ => True

/-- Every field list in the tree is partitioned. -/
def IsTidy (node : Node) : Prop :=
  ∀ n ∈ node.nodes, n.IsPartitioned

/-- Every field list in the trees is partitioned. -/
def AllTidy (nodes : List Node) : Prop :=
  ∀ node ∈ nodes, node.IsTidy

@[simp] theorem allTidy_nil : AllTidy [] :=
  fun _ h => absurd h List.not_mem_nil

@[simp] theorem allTidy_append {xs ys : List Node} :
    AllTidy (xs ++ ys) ↔ AllTidy xs ∧ AllTidy ys :=
  List.forall_mem_append

@[simp] theorem allTidy_cons {node : Node} {rest : List Node} :
    AllTidy (node :: rest) ↔ node.IsTidy ∧ AllTidy rest :=
  List.forall_mem_cons

/-- A tree is tidy if its root is partitioned and its parts are tidy. -/
theorem isTidy_iff {n : Node} : n.IsTidy ↔ n.IsPartitioned ∧ AllTidy n.operands ∧
    AllTidy n.bound ∧ AllTidy (n.segments.map (·.body)) := by
  have h := everywhere_iff (P := IsPartitioned) (n := n)
  simp only [AllTidy, List.forall_mem_map]
  exact h

/-- A node around tidy operands that binds nothing and holds no segment. -/
theorem isTidy_of_operands {n : Node} (hn : n.IsPartitioned) (hbound : n.bound = [])
    (hsegments : n.segments = []) (h : AllTidy n.operands) : n.IsTidy :=
  everywhere_of_operands hbound hsegments hn h

/-- Plain nodes hold no field list. -/
theorem IsPlain.isPartitioned {n : Node} (h : n.IsPlain) : n.IsPartitioned := by
  cases n with
  | transform => cases h
  | _ => trivial

section

variable {base : Node} {type : DataType}

@[simp] theorem slots_variable (name : String) (source : VariableSource) :
    («variable» name source type).slots = [] := rfl

@[simp] theorem slots_inlined (name : String) : (inlined name base).slots = base.slots := rfl

@[simp] theorem slots_block (bindings : List BoundNode) (body : Node) :
    (block bindings body).slots = body.slots := rfl

@[simp] theorem slots_restrict (predicate : Segment) :
    (restrict base predicate).slots = base.slots := rfl

theorem isTidy_variable {name : String} {source : VariableSource} :
    («variable» name source type).IsTidy :=
  isTidy_iff.mpr ⟨trivial, allTidy_nil, allTidy_nil, allTidy_nil⟩

theorem isTidy_block {bindings : List BoundNode} {body : Node} :
    (block bindings body).IsTidy ↔ AllTidy (bindings.map (·.value)) ∧ body.IsTidy := by
  simp [isTidy_iff (n := block bindings body), operands, bound, segments, IsPartitioned, and_comm]

theorem isTidy_restrict {predicate : Segment} :
    (restrict base predicate).IsTidy ↔ base.IsTidy ∧ predicate.body.IsTidy := by
  simp [isTidy_iff (n := restrict base predicate), operands, bound, segments, IsPartitioned]

theorem isTidy_order {keys : List Segment} :
    (order base keys).IsTidy ↔ base.IsTidy ∧ AllTidy (keys.map (·.body)) := by
  simp [isTidy_iff (n := order base keys), operands, bound, segments, IsPartitioned]

theorem isTidy_project {heading : Heading} :
    (project base heading type).IsTidy ↔ base.IsTidy := by
  simp [isTidy_iff (n := project base heading type), operands, bound, segments, IsPartitioned]

theorem isTidy_rename {pairs : List (String × String)} :
    (rename base pairs type).IsTidy ↔ base.IsTidy := by
  simp [isTidy_iff (n := rename base pairs type), operands, bound, segments, IsPartitioned]

/-- A field list is tidy if it is partitioned and its parts are tidy. -/
theorem isTidy_transform {kind : TransformKind} {keys fields : List Segment} {accums : Nat} :
    (transform base kind keys fields accums type).IsTidy ↔
      (transform base kind keys fields accums type).IsPartitioned ∧
        base.IsTidy ∧ AllTidy (keys.map (·.body)) ∧ AllTidy (fields.map (·.body)) := by
  simp [isTidy_iff (n := transform base kind keys fields accums type), operands, bound, segments]

end

/-- Whether a list is partitioned is told by its fields. -/
theorem isPartitioned_bare {n : Node} : n.bare.IsPartitioned ↔ n.IsPartitioned := by
  cases n <;> rfl

/-- Plain nodes around tidy trees are tidy. -/
theorem Wrap.allTidy {given made : List Node} (h : Wrap given made) (hg : AllTidy given) :
    AllTidy made :=
  h.allHave (fun _ hplain => hplain.isPartitioned) hg

end Node

end RelQuery
