/-
What calls and names do to the counters: one fact for each step that
hands out slots or copies sites.

Slots are handed out in one place. A call takes as many as it needs and
becomes the site that owns them; copying a bound value takes new ones
for every site in it. The steps that only put nodes around what is there
need no fact of their own (`Turns.wrap`).
-/
import RelQuery.Proofs.Build.Copy

namespace RelQuery

open Workspace

-- ========================================================== counting

namespace Workspace

section

variable (w : Workspace) (f : Counter → Counter) {slots : List Nat}

/-- The workspace with another counter in force. -/
def onCounter : Workspace :=
  { w with context := { w.context with counters := w.context.counters.update f } }

theorem counter_onCounter : (w.onCounter f).counter = f w.counter :=
  Counters.current_update _ f

/-- A change of the counter in force that hands out the slots it counts. -/
theorem Widens.onCounter (henabled : (f w.counter).enabled = w.counter.enabled)
    (htotal : (f w.counter).total = w.counter.total + slots.length)
    (hslots : slots.Perm (List.range' w.counter.total slots.length)) :
    Widens w (w.onCounter f) slots where
  scopes := .refl _
  counters := by
    rw [counter_onCounter]
    show w.context.counters.update f = w.context.counters.update fun _ => _
    rw [← Counters.update_update _ (fun _ => w.counter) f]
    exact congrArg (Counters.update · f) (Counters.update_current _).symm
  enabled := by rw [counter_onCounter, henabled]
  total := by rw [counter_onCounter, htotal]
  numbered := hslots
  locals := rfl
  pending := rfl
  frames := rfl

/-- A counter that allows folds was replaced by one that has handed out
more. -/
theorem Grows.onCounter (hon : w.counter.enabled = true)
    (henabled : (f w.counter).enabled = true)
    (htotal : (f w.counter).total = w.counter.total + slots.length)
    (hslots : slots.Perm (List.range' w.counter.total slots.length))
    (hsegments : (f w.counter).segments = w.counter.segments + slots.length) :
    Grows w (w.onCounter f) slots where
  toWidens := .onCounter w f (henabled.trans hon.symm) htotal hslots
  segments := by rw [counter_onCounter, hsegments]
  refused := by
    intro hoff
    rw [hoff] at hon
    cases hon

end

end Workspace

namespace Build

variable {w w' : Workspace}

/-- Slots are handed out where folds are allowed, from the total on. -/
theorem allocate_eq_ok {name : String} {n slot : Nat} (h : allocate name n w = .ok slot w') :
    w.counter.enabled = true ∧ slot = w.counter.total ∧ w' = w.onCounter (·.allocate n) := by
  rw [allocate, get_bind_apply] at h
  obtain ⟨⟨first, counters⟩, w₁, hcounters, h⟩ := bind_eq_ok.mp h
  obtain ⟨hallocate, rfl⟩ := ofExcept_eq_ok.mp hcounters
  unfold Counters.allocate at hallocate
  split at hallocate
  · cases hallocate
    cases h
    exact ⟨‹_›, rfl, rfl⟩
  · cases hallocate

/-- A window is noted where folds are allowed. -/
theorem markWindow_eq_ok {name : String} {u : Unit} (h : markWindow name w = .ok u w') :
    w.counter.enabled = true ∧ w' = w.onCounter fun c => { c with hasWindow := true } := by
  rw [markWindow, get_bind_apply] at h
  obtain ⟨counters, w₁, hcounters, h⟩ := bind_eq_ok.mp h
  obtain ⟨hmark, rfl⟩ := ofExcept_eq_ok.mp hcounters
  unfold Counters.markWindow at hmark
  split at hmark
  · cases hmark
    cases h
    exact ⟨‹_›, rfl⟩
  · cases hmark

/-- Slots are handed out from the total, one after another. -/
theorem allocate_grows {name : String} {n slot : Nat} (h : allocate name n w = .ok slot w') :
    Grows w w' (FoldSite.slots ⟨slot, n⟩) := by
  obtain ⟨hon, hslot, rfl⟩ := allocate_eq_ok h
  subst hslot
  refine Grows.onCounter w (·.allocate n) hon hon ?_ ?_ ?_
  · rw [FoldSite.slots, List.length_range']
    rfl
  · rw [FoldSite.slots, List.length_range']
  · rw [FoldSite.slots, List.length_range']
    rfl

/-- Noting a window hands out nothing. -/
theorem markWindow_grows {name : String} {u : Unit} (h : markWindow name w = .ok u w') :
    Grows w w' [] := by
  obtain ⟨hon, rfl⟩ := markWindow_eq_ok h
  exact Grows.onCounter w _ hon hon rfl .nil rfl

/-- The step gives a call the slots that it needs. -/
def Hands (count : Nat) (step : Build (Option Nat)) : Prop :=
  ∀ w slot w', step w = .ok slot w' →
    Grows w w' ((FoldSite.ofCall slot count).flatMap FoldSite.slots)

/-- A call takes as many slots as its link says. -/
theorem allocateFor_hands (link : Signature) : Hands link.accums (allocateFor link) := by
  intro w slot w' h
  unfold allocateFor at h
  split at h
  · cases h
    exact .refl w
  · obtain ⟨first, w₁, hfirst, h⟩ := bind_eq_ok.mp h
    cases h
    rw [FoldSite.ofCall, List.flatMap_singleton]
    exact allocate_grows hfirst

/-- A call without slots takes none. -/
theorem none_hands (count : Nat) : Hands count (pure none) := by
  intro w slot w' h
  cases h
  exact .refl w

-- ============================================================ calls

namespace Turns

variable {given : List Node}

/-- A node around the given trees takes its own slots after theirs. -/
theorem of_grows {α : Type} {step : Build α} {f : α → Node}
    (h : ∀ {w a w'}, step w = .ok a w' → Grows w w' ((f a).ownSites.flatMap FoldSite.slots))
    (hoperands : ∀ a, (f a).operands = given)
    (htidy : ∀ a, Node.AllTidy (f a).operands → (f a).IsTidy) :
    Turns given (step >>= fun a => Pure.pure (f a)) fun n => [n] := by
  intro w n w' hn
  obtain ⟨a, w₁, ha, hn⟩ := bind_eq_ok.mp hn
  cases hn
  rw [← hoperands a]
  refine ⟨_, h ha, ?_, fun _ hg => Node.allTidy_cons.mpr ⟨htidy a hg, Node.allTidy_nil⟩⟩
  rw [Node.allSlots_cons, Node.allSlots_nil, List.append_nil, Node.slots_eq]

/-- Plain nodes are put around the given trees. -/
theorem wrap {α : Type} {made : α → List Node} {a : α} (h : Node.Wrap given (made a)) :
    Turns given (Pure.pure a) made :=
  pure h.slots_perm h.allTidy

/-- A node without operands or sites of its own. -/
theorem leaf {n : Node} (hslots : n.slots = []) (htidy : n.IsTidy) :
    Turns [] (Pure.pure n) fun n => [n] := by
  refine pure ?_ fun _ => Node.allTidy_cons.mpr ⟨htidy, Node.allTidy_nil⟩
  rw [Node.allSlots_cons, hslots]
  exact .refl _

end Turns

/-- Noting a call hands out nothing, whether it has a window or not. -/
theorem noteWindow_grows {link : Signature} {u : Unit} (h : noteWindow link w = .ok u w') :
    Grows w w' [] := by
  unfold noteWindow at h
  split at h
  · exact markWindow_grows h
  · cases h
    exact .refl w

/-- A builtin takes its slots after its operands have taken theirs. -/
theorem builtin_turns (link : Signature) (args : List Node) (type : DataType) :
    Turns args (noteWindow link >>= fun _ => allocateFor link >>= fun slot =>
      pure (.call link args type slot)) fun n => [n] := by
  have hnote : Turns args (noteWindow link) fun _ => args := fun w u w' h =>
    ⟨[], noteWindow_grows h, by rw [List.append_nil], fun _ => id⟩
  exact hnote.bind fun _ => .of_grows (allocateFor_hands link _ _ _) (fun _ => rfl)
    fun _ => Node.isTidy_of_operands trivial rfl rfl

/-- A function takes its slots as a builtin does. -/
theorem function_turns (link : Signature) (args : List Node) (type : DataType) :
    Turns args (allocateFor link >>= fun slot => pure (.function link args type slot))
      fun n => [n] :=
  .of_grows (allocateFor_hands link _ _ _) (fun _ => rfl)
    fun _ => Node.isTidy_of_operands trivial rfl rfl

/-- A fold takes the one slot that it keeps its value in. -/
theorem fold_turns (op : String) (arg : Node) (type : DataType) :
    Turns [arg] (allocate "fold" 1 >>= fun slot => pure (.fold op slot arg type))
      fun n => [n] :=
  .of_grows (fun h => allocate_grows h) (fun _ => rfl)
    fun _ => Node.isTidy_of_operands trivial rfl rfl

-- =========================================================== copies

/-- A node that is put around copies takes the slots that it has of its
own. -/
theorem rebuild_grows {n n' : Node} {ns : List Node} (h : rebuild n ns w = .ok n' w') :
    Grows w w' (n'.ownSites.flatMap FoldSite.slots) := by
  have hslots (link : Signature) (slot : Option Nat) :
      Hands link.accums (reallocate link slot) := by
    unfold reallocate
    split
    · exact allocateFor_hands link
    · exact none_hands link.accums
  cases n with
  | call link args type slot =>
      obtain ⟨u, w₁, hnote, h⟩ := bind_eq_ok.mp h
      obtain ⟨slot', w₂, hslot, h⟩ := bind_eq_ok.mp h
      cases h
      exact (noteWindow_grows hnote).trans (hslots link slot w₁ slot' w' hslot)
  | function link args type slot =>
      obtain ⟨slot', w₁, hslot, h⟩ := bind_eq_ok.mp h
      cases h
      exact hslots link slot w slot' w' hslot
  | fold op slot arg type =>
      obtain ⟨slot', w₁, hslot, h⟩ := bind_eq_ok.mp h
      cases h
      exact allocate_grows hslot
  -- what has no site keeps none
  | _ =>
      cases h
      exact .refl w

/-- Copies take as many slots as they have, one copy after another. -/
theorem InRow.grows {ms ns : List Node}
    (h : InRow (fun w _ n' w' => ∃ slots, w.Grows w' slots ∧ slots.Perm n'.slots) w ms ns w') :
    ∃ slots, w.Grows w' slots ∧ slots.Perm (Node.allSlots ns) := by
  induction h with
  | nil w => exact ⟨[], .refl w, .refl _⟩
  | cons hn _ ih =>
      obtain ⟨xs, hgrows, hxs⟩ := hn
      obtain ⟨ys, hgrows', hys⟩ := ih
      exact ⟨xs ++ ys, hgrows.trans hgrows', hxs.append hys⟩

/-- The slots of a copy are handed out for it. -/
theorem relocate_grows {n n' : Node} (h : relocate n w = .ok n' w') :
    ∃ slots, w.Grows w' slots ∧ slots.Perm n'.slots := by
  refine relocate_induction (P := fun w _ n' w' => ∃ slots, w.Grows w' slots ∧
    slots.Perm n'.slots) ?_ h
  intro w w₁ w' n n' ns hoperands hbuilt
  obtain ⟨slots, hgrows, hslots⟩ := hoperands.grows
  obtain ⟨-, hns, -⟩ := rebuild_eq_ok hoperands.length_eq hbuilt
  refine ⟨_, hgrows.trans (rebuild_grows hbuilt), ?_⟩
  rw [Node.slots_eq, hns]
  exact hslots.append_right _

/-- A copy of a tidy tree is tidy, since its field lists are those of the
tree. -/
theorem relocate_tidy {n n' : Node} (h : relocate n w = .ok n' w') (hn : n.IsTidy) : n'.IsTidy :=
  (relocate_related (R := fun m m' => m.IsTidy → m'.IsTidy)
    (fun _ _ => Node.everywhere_of_bare fun _ => Node.isPartitioned_bare) h).2 hn

-- ============================================================ names

/-- A use of a binding is a copy of its value, in fresh slots. -/
theorem useLocal_turns (name : String) (slot : Nat) :
    Turns [] (useLocal name slot) fun n => [n] := by
  intro w n w' h
  obtain ⟨bound, copy, hbound, rfl, hcopy⟩ := useLocal_steps h
  have hreads : w.Grows (w.reread bound) [] :=
    .onScopes w (Scopes.Widens.foldl_record w.context.scopes bound.reads)
  obtain ⟨slots, hgrows, hslots⟩ := relocate_grows hcopy
  refine ⟨slots, hreads.trans hgrows, ?_, fun hw _ => ?_⟩
  · simpa using hslots
  · have hvalue : bound.value.IsTidy := hw bound (List.mem_of_getElem? hbound)
    refine Node.allTidy_cons.mpr ⟨Node.isTidy_of_operands trivial rfl rfl ?_, Node.allTidy_nil⟩
    exact List.forall_mem_singleton.mpr (relocate_tidy hcopy hvalue)

/-- What is found in a scope is loaded, or it is a binding and copied. -/
theorem useSymbol_turns (symbol : Symbol) : Turns [] (useSymbol symbol) fun n => [n] := by
  unfold useSymbol
  split
  · exact .leaf rfl Node.isTidy_variable
  · exact .leaf rfl Node.isTidy_variable
  · exact .leaf rfl Node.isTidy_variable
  · exact .leaf rfl Node.isTidy_variable
  · exact useLocal_turns _ _
  · exact .fail _

/-- What is found in the catalog is loaded. -/
theorem useGlobal_turns (catalog : Catalog) (name : String) :
    Turns [] (useGlobal catalog name) fun n => [n] := by
  unfold useGlobal
  split
  · split
    · exact .leaf rfl Node.isTidy_variable
    · exact .leaf rfl Node.isTidy_variable
    · exact .fail _
  · split
    · exact .fail _
    · exact .fail _

/-- A name is looked up in the scopes and then in the catalog. -/
theorem useName_turns (catalog : Catalog) (name : String) :
    Turns [] (useName catalog name) fun n => [n] := by
  refine (Turns.resolve name).bind fun found => ?_
  cases found with
  | some symbol => exact useSymbol_turns symbol
  | none => exact useGlobal_turns catalog name

/-- The row being looked at reads every column. -/
theorem currentRow_turns : Turns [] currentRow fun n => [n] := by
  have hreads (names : List String) : Turns [] (forIn names PUnit.unit fun name _ =>
      discard (resolve name) >>= fun _ => pure (ForInStep.yield PUnit.unit)) fun _ => [] := by
    induction names with
    | nil => exact .pure (.refl _) id
    | cons name names ih =>
        rw [List.forIn_cons]
        have hread : Turns [] (discard (resolve name)) fun _ => [] := by
          intro w u w' h
          obtain ⟨found, h⟩ := discard_eq_ok.mp h
          exact Turns.resolve name w found w' h
        refine (hread.bind fun _ => .pure (.refl _) id).bind (m := fun _ => []) fun next => ?_
        cases next with
        | done u => exact .pure (.refl _) id
        | yield u => exact ih
  refine .get_bind fun w => ?_
  split
  · exact .fail _
  · refine (hreads _).bind fun _ => .leaf rfl ?_
    exact Node.isTidy_of_operands trivial rfl rfl Node.allTidy_nil

end Build

end RelQuery
