/-
Copying a bound value.

A copy differs from the value in its slots and nothing else. It is made
from the operands upwards: first they are copied, then the node is put
around them and gets slots of its own, if it has some (`rebuild`).
Everything about copies follows from what `rebuild` does to one node,
by induction over the operands (`relocate_induction`).

Some properties of steps say nothing about trees, such as how a step may
fail. If one of these holds of the two steps on the counters, and is
kept when steps run in a row, it holds of copying (`Stepwise`).
-/
import RelQuery.Build.Call
import RelQuery.Build.Name
import RelQuery.Proofs.Build.Growth

namespace RelQuery

/-- The workspace with the reads of a bound value recorded once more. -/
def Workspace.reread (w : Workspace) (bound : LocalSlot) : Workspace :=
  { w with context := { w.context with
    scopes := bound.reads.foldl (fun s r => s.record r.column r.level) w.context.scopes } }

namespace Build

variable {α β : Type} {w w' : Workspace}

-- ======================================================== counters

/-- The step changes counters only. -/
def Tallies (step : Build α) : Prop :=
  ∀ w a w', step w = .ok a w' →
    ∃ counters, w' = { w with context := { w.context with counters } }

/-- Handing out slots changes counters only. -/
theorem allocate_tallies (name : String) (n : Nat) : Tallies (allocate name n) := by
  intro w slot w' h
  rw [allocate, get_bind_apply] at h
  obtain ⟨⟨first, counters⟩, w₁, hcounters, h⟩ := bind_eq_ok.mp h
  obtain ⟨-, rfl⟩ := ofExcept_eq_ok.mp hcounters
  cases h
  exact ⟨counters, rfl⟩

/-- Noting a window changes counters only. -/
theorem markWindow_tallies (name : String) : Tallies (markWindow name) := by
  intro w u w' h
  rw [markWindow, get_bind_apply] at h
  obtain ⟨counters, w₁, hcounters, h⟩ := bind_eq_ok.mp h
  obtain ⟨-, rfl⟩ := ofExcept_eq_ok.mp hcounters
  cases h
  exact ⟨counters, rfl⟩

/-- The slots of a call change counters only. -/
theorem allocateFor_tallies (link : Signature) : Tallies (allocateFor link) := by
  intro w slot w' h
  unfold allocateFor at h
  split at h
  · cases h
    exact ⟨w.context.counters, rfl⟩
  · obtain ⟨first, w₁, hfirst, h⟩ := bind_eq_ok.mp h
    cases h
    exact allocate_tallies _ _ w first w' hfirst

/-- The step changes counters only and gives one of some nodes. -/
def Yields (step : Build Node) (f : α → Node) : Prop :=
  ∀ w n w', step w = .ok n w' →
    (∃ counters, w' = { w with context := { w.context with counters } }) ∧ ∃ a, n = f a

namespace Yields

/-- A node is given without a step. -/
theorem pure {f : α → Node} (a : α) : Yields (pure (f a)) f := by
  intro w n w' hn
  cases hn
  exact ⟨⟨w.context.counters, rfl⟩, a, rfl⟩

/-- Slots come before the node that they are for. -/
theorem bind {slots : Build β} (h : Tallies slots) {rest : β → Build Node} {f : α → Node}
    (hrest : ∀ b, Yields (rest b) f) : Yields (slots >>= rest) f := by
  intro w n w' hn
  obtain ⟨b, w₁, hb, hn⟩ := bind_eq_ok.mp hn
  obtain ⟨counters, rfl⟩ := h w b w₁ hb
  obtain ⟨⟨counters', rfl⟩, hnode⟩ := hrest b _ n w' hn
  exact ⟨⟨counters', rfl⟩, hnode⟩

end Yields

-- ========================================================== copies

/-- Notes a call that looks at neighbouring rows. -/
def noteWindow (link : Signature) : Build Unit :=
  if link.windowed then markWindow link.name else pure ()

/-- A call of a builtin notes a window and takes slots, in the same way for
every link that is called at all. -/
theorem callBuiltin_eq (link : Signature) (args : List Node) (type : DataType) :
    callBuiltin link args type = match link.kind with
      | .fold => fail .foldWithoutOperator
      | .variadic | .variadicTable => pure (.variadic link args type)
      | .fixed | .deferred => noteWindow link >>= fun _ => allocateFor link >>= fun slot =>
        pure (.call link args type slot) := by
  unfold callBuiltin noteWindow
  cases link.windowed <;> rfl

/-- New slots for a call that had some. -/
def reallocate (link : Signature) (slot : Option Nat) : Build (Option Nat) :=
  if slot.isSome then allocateFor link else pure none

/-- The node around copies of its operands, with new slots. -/
def rebuild : Node → List Node → Build Node
  | .call link _ type slot, ns =>
    noteWindow link >>= fun _ => reallocate link slot >>= fun slot => pure (.call link ns type slot)
  | .function link _ type slot, ns =>
    reallocate link slot >>= fun slot => pure (.function link ns type slot)
  | .fold op _ arg type, ns =>
    allocate "fold" 1 >>= fun slot => pure (.fold op slot (ns.headD arg) type)
  | n, ns => pure (n.withOperands ns)

/-- A copy is made from the operands upwards. -/
theorem relocate_eq (n : Node) : relocate n = relocateAll n.operands >>= rebuild n := by
  cases n with
  | call link args type slot =>
      rw [relocate]
      congr 1
      funext ns
      rw [rebuild, noteWindow, reallocate]
      cases link.windowed <;> cases slot.isSome <;> rfl
  | function link args type slot =>
      rw [relocate]
      congr 1
      funext ns
      rw [rebuild, reallocate]
      cases slot.isSome <;> rfl
  | variadic _ _ _ | row _ _ | table _ _ | selector _ _ =>
      rw [relocate]
      rfl
  | _ => simp [relocate, relocateAll, Node.operands, rebuild, Node.withOperands]

/-- Noting a window changes counters only. -/
theorem noteWindow_tallies (link : Signature) : Tallies (noteWindow link) := by
  unfold noteWindow
  split
  · exact markWindow_tallies _
  · exact fun w u w' h => ⟨_, (pure_eq_ok.mp h).2.symm⟩

/-- New slots change counters only. -/
theorem reallocate_tallies (link : Signature) (slot : Option Nat) :
    Tallies (reallocate link slot) := by
  unfold reallocate
  split
  · exact allocateFor_tallies link
  · exact fun w u w' h => ⟨_, (pure_eq_ok.mp h).2.symm⟩

/-- What a node is apart from its operands and slots stays, and only
counters change. -/
theorem rebuild_eq_ok {n n' : Node} {ns : List Node} (hlen : ns.length = n.operands.length)
    (h : rebuild n ns w = .ok n' w') :
    (∃ counters, w' = { w with context := { w.context with counters } }) ∧
      n'.operands = ns ∧ n'.bare = n.bare := by
  have hslot {f : Option Nat → Node} (hf : ∀ slot, (f slot).operands = ns ∧ (f slot).bare = n.bare)
      (hy : Yields (rebuild n ns) f) :
      (∃ counters, w' = { w with context := { w.context with counters } }) ∧
        n'.operands = ns ∧ n'.bare = n.bare := by
    obtain ⟨hcounters, slot, rfl⟩ := hy w n' w' h
    exact ⟨hcounters, hf slot⟩
  cases n with
  | call link args type slot =>
      refine hslot (f := fun slot => .call link ns type slot) (fun _ => ⟨rfl, rfl⟩) ?_
      exact .bind (noteWindow_tallies link) fun _ => .bind (reallocate_tallies link slot) .pure
  | function link args type slot =>
      refine hslot (f := fun slot => .function link ns type slot) (fun _ => ⟨rfl, rfl⟩) ?_
      exact .bind (reallocate_tallies link slot) .pure
  | fold op slot arg type =>
      obtain ⟨m, rfl⟩ := List.length_eq_one_iff.mp hlen
      have hy : Yields (rebuild (.fold op slot arg type) [m]) fun slot => .fold op slot m type :=
        .bind (allocate_tallies _ _) .pure
      obtain ⟨hcounters, slot', rfl⟩ := hy w n' w' h
      exact ⟨hcounters, rfl, rfl⟩
  | _ =>
      cases h
      exact ⟨⟨_, rfl⟩, Node.withOperands_spec hlen⟩

/-- Trees and what has become of them, one step after another. -/
inductive InRow (P : Workspace → Node → Node → Workspace → Prop) :
    Workspace → List Node → List Node → Workspace → Prop
  | nil (w : Workspace) : InRow P w [] [] w
  | cons {w w₁ w' : Workspace} {n n' : Node} {ns ns' : List Node} :
      P w n n' w₁ → InRow P w₁ ns ns' w' → InRow P w (n :: ns) (n' :: ns') w'

/-- Values are copied one for one. -/
theorem InRow.length_eq {P : Workspace → Node → Node → Workspace → Prop} {ms ns : List Node}
    (h : InRow P w ms ns w') : ns.length = ms.length := by
  induction h with
  | nil => rfl
  | cons _ _ ih => rw [List.length_cons, List.length_cons, ih]

/-- What is shown of a node whose operands have been copied holds of every
copy. -/
theorem relocate_induction {P : Workspace → Node → Node → Workspace → Prop}
    (hnode : ∀ {w w₁ w' : Workspace} {n n' : Node} {ns : List Node},
      InRow P w n.operands ns w₁ → rebuild n ns w₁ = .ok n' w' → P w n n' w')
    {n n' : Node} (h : relocate n w = .ok n' w') : P w n n' w' := by
  induction n using Node.operands_induction generalizing w n' w' with
  | step n ih =>
  -- operands are copied in a row, each with the counters that the last one left
  have hall : ∀ ms : List Node, (∀ m ∈ ms, m ∈ n.operands) → ∀ w ns w₁,
      relocateAll ms w = .ok ns w₁ → InRow P w ms ns w₁ := by
    intro ms hms
    induction ms with
    | nil =>
        intro w ns w₁ h
        cases h
        exact .nil w
    | cons m ms ihms =>
        intro w ns w₁ h
        obtain ⟨m', w₂, hm, h⟩ := bind_eq_ok.mp h
        obtain ⟨ms', w₃, hrest, h⟩ := bind_eq_ok.mp h
        cases h
        refine .cons (ih m (hms m List.mem_cons_self) hm) ?_
        exact ihms (fun k hk => hms k (List.mem_cons_of_mem _ hk)) _ ms' _ hrest
  rw [relocate_eq] at h
  obtain ⟨ns, w₁, hns, h⟩ := bind_eq_ok.mp h
  exact hnode (hall n.operands (fun _ => id) w ns w₁ hns) h

/-- Steps that change counters only, and relate each tree to its copy. -/
theorem InRow.related {R : Node → Node → Prop} {ms ns : List Node}
    (h : InRow (fun w n n' w' =>
      (∃ counters, w' = { w with context := { w.context with counters } }) ∧ R n n') w ms ns w') :
    (∃ counters, w' = { w with context := { w.context with counters } }) ∧
      List.Forall₂ R ms ns := by
  induction h with
  | nil w => exact ⟨⟨_, rfl⟩, .nil⟩
  | cons hm _ ih =>
      obtain ⟨⟨counters, rfl⟩, hrel⟩ := hm
      obtain ⟨⟨counters', rfl⟩, hrels⟩ := ih
      exact ⟨⟨counters', rfl⟩, .cons hrel hrels⟩

/-- A tree and its copy are related if a node and its copy are, given
that their operands are. -/
theorem relocate_related {R : Node → Node → Prop}
    (hnode : ∀ n n', n'.bare = n.bare → List.Forall₂ R n.operands n'.operands → R n n')
    {n n' : Node} (h : relocate n w = .ok n' w') :
    (∃ counters, w' = { w with context := { w.context with counters } }) ∧ R n n' := by
  refine relocate_induction (P := fun w n n' w' =>
    (∃ counters, w' = { w with context := { w.context with counters } }) ∧ R n n') ?_ h
  intro w w₁ w' n n' ns hoperands hbuilt
  obtain ⟨⟨counters, rfl⟩, hrels⟩ := hoperands.related
  obtain ⟨⟨counters', rfl⟩, hns, hbare⟩ := rebuild_eq_ok hrels.length_eq.symm hbuilt
  refine ⟨⟨counters', rfl⟩, hnode n n' hbare ?_⟩
  rwa [hns]

/-- The steps of a use of a binding: the reads of the bound value are recorded
again, and the value is copied. -/
theorem useLocal_steps {name : String} {slot : Nat} {n : Node}
    (h : useLocal name slot w = .ok n w') :
    ∃ bound copy, w.locals[slot]? = some bound ∧ n = .inlined name copy ∧
      relocate bound.value (w.reread bound) = .ok copy w' := by
  rw [useLocal, get_bind_apply] at h
  cases hbound : w.locals[slot]? with
  | none =>
      rw [hbound] at h
      exact absurd h fail_ne_ok
  | some bound =>
      rw [hbound] at h
      obtain ⟨u, w₁, hscopes, h⟩ := bind_eq_ok.mp h
      obtain ⟨copy, w₂, hcopy, h⟩ := bind_eq_ok.mp h
      cases h
      cases hscopes
      exact ⟨bound, copy, rfl, rfl, hcopy⟩

-- ============================================== closed properties

/-- A property that holds of several steps in a row if it does of each, and
of the two steps by which calls and folds change counters. -/
structure Stepwise (P : {α : Type} → Build α → Prop) : Prop where
  pure : ∀ {α : Type} (a : α), P (pure a : Build α)
  bind : ∀ {α β : Type} {step : Build α} {rest : α → Build β}, P step → (∀ a, P (rest a)) →
    P (step >>= rest)
  markWindow : ∀ name, P (markWindow name)
  allocate : ∀ name n, P (allocate name n)

namespace Stepwise

variable {P : {α : Type} → Build α → Prop}

theorem noteWindow (h : Stepwise P) (link : Signature) : P (noteWindow link) := by
  unfold Build.noteWindow
  split
  · exact h.markWindow link.name
  · exact h.pure _

theorem allocateFor (h : Stepwise P) (link : Signature) : P (allocateFor link) := by
  unfold Build.allocateFor
  split
  · exact h.pure none
  · exact h.bind (h.allocate _ _) fun _ => h.pure _

theorem rebuild (h : Stepwise P) (n : Node) (ns : List Node) : P (rebuild n ns) := by
  have hslot (link : Signature) (slot : Option Nat) : P (reallocate link slot) := by
    unfold reallocate
    split
    · exact h.allocateFor link
    · exact h.pure none
  cases n with
  | call link args type slot =>
      exact h.bind (h.noteWindow link) fun _ => h.bind (hslot link slot) fun _ => h.pure _
  | function link args type slot => exact h.bind (hslot link slot) fun _ => h.pure _
  | fold op slot arg type => exact h.bind (h.allocate _ _) fun _ => h.pure _
  | _ => exact h.pure _

/-- Copying is nothing but such steps. -/
theorem relocate (h : Stepwise P) (n : Node) : P (relocate n) := by
  induction n using Node.operands_induction with
  | step n ih =>
  have hall : ∀ ms : List Node, (∀ m ∈ ms, m ∈ n.operands) → P (relocateAll ms) := by
    intro ms hms
    induction ms with
    | nil => exact h.pure []
    | cons m ms ihms =>
        refine h.bind (ih m (hms m List.mem_cons_self)) fun _ => ?_
        exact h.bind (ihms fun k hk => hms k (List.mem_cons_of_mem _ hk)) fun _ => h.pure _
  rw [relocate_eq]
  exact h.bind (hall n.operands fun _ => id) (h.rebuild n)

end Stepwise

end Build

end RelQuery
