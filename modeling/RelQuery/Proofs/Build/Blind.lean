/-
What building does not notice.

Scopes can hold something that nothing depends on: names that others
hide, or what a tracker further out has seen. A change of the scopes is
not noticed by a step if it can be made before the step or after it with
the same outcome, success or failure (`Overlooks`). Most steps look at
the scopes only through a few operations, so for a change that these
operations overlook no expression notices it (`Blind.expression`).

What the operations overlook may depend on how many levels and trackers
have been opened since. A `Blind` counts them, and each step says how far
it moves. A level is closed where it was opened, so that the place at the
beginning is one that is known to be possible.
-/
import RelQuery.Proofs.Build.Reading
import RelQuery.Proofs.Context.Recording

namespace RelQuery

namespace Workspace

/-- The workspace with other scopes. -/
def changed (g : Scopes → Scopes) (w : Workspace) : Workspace :=
  { w with context := { w.context with scopes := g w.context.scopes } }

end Workspace

namespace Build

open Workspace

variable {α β : Type} {g : Scopes → Scopes} {P Q R : Workspace → Prop} {step : Build α}
  {w w' : Workspace}

/-- The outcome of a run, with the scopes changed where it ends. -/
def changedEnd (g : Scopes → Scopes) :
    EStateM.Result BuildFault Workspace α → EStateM.Result BuildFault Workspace α
  | .ok a w => .ok a (w.changed g)
  | .error f w => .error f (w.changed g)

/-- From a workspace with `P` the step leads to one with `Q`, and it
makes no difference whether the scopes are changed before or after it. -/
def Overlooks (g : Scopes → Scopes) (P Q : Workspace → Prop) (step : Build α) : Prop :=
  ∀ w, P w → step (w.changed g) = changedEnd g (step w) ∧ ∀ a w', step w = .ok a w' → Q w'

namespace Overlooks

/-- Doing nothing notices nothing. -/
theorem pure {a : α} : Overlooks g P P (Pure.pure a : Build α) := by
  intro w hw
  refine ⟨rfl, fun b w' h => ?_⟩
  cases h
  exact hw

theorem throw (f : BuildFault) : Overlooks g P Q (throw f : Build α) :=
  fun _ _ => ⟨rfl, fun _ _ h => nomatch h⟩

theorem fail (e : BuildError) : Overlooks g P Q (fail e : Build α) :=
  throw _

theorem fail_bind (e : BuildError) {rest : α → Build β} :
    Overlooks g P Q (Build.fail e >>= rest) :=
  fun _ _ => ⟨rfl, fun _ _ h => nomatch h⟩

/-- A change that two steps overlook is overlooked by both in a row. -/
theorem bind {rest : α → Build β} (h : Overlooks g P Q step)
    (hrest : ∀ a, Overlooks g Q R (rest a)) : Overlooks g P R (step >>= rest) := by
  intro w hw
  obtain ⟨hrun, hends⟩ := h w hw
  constructor
  · show EStateM.bind step rest (w.changed g) = changedEnd g (EStateM.bind step rest w)
    unfold EStateM.bind
    rw [hrun]
    cases hstep : step w with
    | ok a w₁ => exact (hrest a w₁ (hends a w₁ hstep)).1
    | error f w₁ => rfl
  · intro b w' hb
    obtain ⟨a, w₁, ha, hb⟩ := bind_eq_ok.mp hb
    exact (hrest a w₁ (hends a w₁ ha)).2 b w' hb

/-- A mark does not depend on the scopes. -/
theorem located (mark : Nat) (h : Overlooks g P Q step) : Overlooks g P Q (located mark step) := by
  intro w hw
  obtain ⟨hrun, hends⟩ := h w hw
  refine ⟨?_, fun a w' ha => hends a w' (located_eq_ok.mp ha)⟩
  unfold Build.located
  rw [hrun]
  cases step w with
  | ok a w₁ => rfl
  | error f w₁ => rfl

theorem discard (h : Overlooks g P Q step) : Overlooks g P Q (discard step) := by
  show Overlooks g P Q (Functor.mapConst PUnit.unit step)
  rw [map_const, Function.comp_apply, map_eq_pure_bind]
  exact h.bind fun _ => pure

/-- An outcome does not depend on the scopes. -/
theorem ofExcept {ε : Type} {wrap : ε → BuildError} {r : Except ε α} :
    Overlooks g P P (ofExcept wrap r) := by
  cases r with
  | ok a => exact pure
  | error e => exact fail _

/-- What is looked up in the workspace may depend on what cannot be
seen only through what is done with it. -/
theorem get_bind {f : Workspace → Build α} (hf : ∀ w, P w → f (w.changed g) = f w)
    (h : ∀ v, Overlooks g P Q (f v)) : Overlooks g P Q (get >>= f) := by
  intro w hw
  rw [get_bind_apply, get_bind_apply, hf w hw]
  exact h w w hw

/-- A change of the workspace that the other change can be exchanged with. -/
theorem modify {f : Workspace → Workspace} (hf : ∀ w, P w → f (w.changed g) = (f w).changed g)
    (h : ∀ w, P w → Q (f w)) : Overlooks g P Q (modify f) := by
  intro w hw
  refine ⟨congrArg (EStateM.Result.ok PUnit.unit) (hf w hw), fun _ w' ha => ?_⟩
  cases ha
  exact h w hw

/-- A look at the scopes that the change can be exchanged with. -/
theorem onScopes {f : Scopes → α × Scopes}
    (hf : ∀ w, P w → f (g w.context.scopes)
      = ((f w.context.scopes).1, g (f w.context.scopes).2))
    (h : ∀ w, P w → Q { w with context := { w.context with scopes := (f w.context.scopes).2 } }) :
    Overlooks g P Q (onScopes f) := by
  intro w hw
  refine ⟨?_, fun a w' ha => ?_⟩
  · show EStateM.Result.ok (f (g w.context.scopes)).1
      { w with context := { w.context with scopes := (f (g w.context.scopes)).2 } } = _
    rw [hf w hw]
    rfl
  · cases ha
    exact h w hw

/-- A context operation that fails leaves the workspace behind, too. -/
theorem ofContext {f : Context → Except ContextError α × Context}
    (hf : ∀ w, P w → f { w.context with scopes := g w.context.scopes }
      = ((f w.context).1, { (f w.context).2 with scopes := g (f w.context).2.scopes }))
    (h : ∀ w a, P w → (f w.context).1 = .ok a → Q { w with context := (f w.context).2 }) :
    Overlooks g P Q (ofContext f) := by
  intro w hw
  have hrun (v : Workspace) : Build.ofContext f v
      = Build.ofExcept .context (f v.context).1 { v with context := (f v.context).2 } := rfl
  rw [hrun, hrun]
  constructor
  · show Build.ofExcept _ (f { w.context with scopes := g w.context.scopes }).1
      { w with context := (f { w.context with scopes := g w.context.scopes }).2 } = _
    rw [hf w hw]
    cases (f w.context).1 with
    | ok a => rfl
    | error e => rfl
  · intro a w' ha
    cases hresult : (f w.context).1 with
    | ok b =>
        rw [hresult] at ha
        cases ha
        exact h w _ hw hresult
    | error e =>
        rw [hresult] at ha
        exact absurd ha fail_ne_ok

/-- More may be known about where the step ends. -/
theorem ends (h : Overlooks g P Q step) (hends : ∀ w a w', P w → step w = .ok a w' → R w') :
    Overlooks g P R step :=
  fun w hw => ⟨(h w hw).1, fun a w' => hends w a w' hw⟩

end Overlooks

/-- Closing a level gives the same scope. -/
theorem pop_changed {c : Context} (h : (g c.scopes).pop = c.scopes.pop.map fun p => (p.1, g p.2)) :
    Context.pop { c with scopes := g c.scopes }
      = (c.pop.1, { c.pop.2 with scopes := g c.pop.2.scopes }) := by
  unfold Context.pop
  dsimp only
  rw [h]
  cases c.scopes.pop with
  | error e => rfl
  | ok p =>
      dsimp only [Except.map]
      cases c.counters.pop with
      | error e => rfl
      | ok q => rfl

/-- The list that is open is not in the scopes. -/
theorem frame_overlooks : Overlooks g P P frame := by
  refine .get_bind (fun _ _ => rfl) fun v => ?_
  split
  · exact .fail _
  · exact .pure

/-- Whether an entry renames a column is not in the scopes. -/
theorem renameSource_overlooks (e : Expr) : Overlooks g P P (renameSource? e) := by
  unfold renameSource?
  split
  · refine .bind (.get_bind (fun _ _ => rfl) fun v => ?_) fun _ => .pure
    split
    · exact .pure
    · exact .pure
  · exact .pure

theorem endField_overlooks (h : Overlooks g P Q leave) (name : String) (value : Node) :
    Overlooks g P Q (endField name value) := by
  refine .bind (.get_bind (fun _ _ => rfl) fun _ => .pure) fun c => ?_
  exact h.bind fun _ => .pure

/-- Entries are set against the columns of the base, which are not in the
scopes. -/
theorem fieldItems_overlooks (f : FieldFrame) (entries : List (FieldSpec Segment)) :
    Overlooks g P P (fieldItems f entries) := by
  unfold fieldItems
  split
  · exact .bind .ofExcept fun _ => .pure
  · exact .pure

end Build

-- ======================================================= the operations

/-- A change of the scopes that the operations on them overlook. Where
it is `At` some place, opening a level and starting a tracker lead to
other places, and closing and ending them lead back. -/
structure Blind where
  change : Scopes → Scopes
  At : Nat → Scopes → Prop
  /-- The place inside a level. -/
  opened : Nat → Nat
  /-- The place under a tracker. -/
  tracked : Nat → Nat
  level : ∀ s, (change s).level = s.level
  find? : ∀ {d s}, At d s → ∀ name, (change s).find? name = s.find? name
  heading? : ∀ {d s}, At d s → (change s).heading? = s.heading?
  recordAll : ∀ s reads, (change s).recordAll reads = change (s.recordAll reads)
  recordAll_at : ∀ {d s}, At d s → ∀ reads, At d (s.recordAll reads)
  enter : ∀ {d s}, At d s → ∀ scope, (change s).enter scope = change (s.enter scope)
  enter_at : ∀ {d s}, At d s → ∀ scope, At (opened d) (s.enter scope)
  pop : ∀ {d s s₀}, At d s₀ → At (opened d) s →
    (change s).pop = s.pop.map fun p => (p.1, change p.2)
  pop_at : ∀ {d s s₀ scope t}, At d s₀ → At (opened d) s → s.pop = .ok (scope, t) → At d t
  add : ∀ {d s}, At d s → ∀ symbol, (change s).add symbol = (s.add symbol).map change
  add_at : ∀ {d s symbol t}, At d s → s.add symbol = .ok t → At d t
  trackReads : ∀ {d s}, At d s → (change s).trackReads = change s.trackReads
  trackReads_at : ∀ {d s}, At d s → At (tracked d) s.trackReads
  takeReads : ∀ {d s}, At (tracked d) s →
    (change s).takeReads = (s.takeReads.1, change s.takeReads.2)
  takeReads_at : ∀ {d s}, At (tracked d) s → At d s.takeReads.2

namespace Blind

open Build Workspace

/-- The scopes of the workspace are at this place. -/
def Within (B : Blind) (d : Nat) (w : Workspace) : Prop :=
  B.At d w.context.scopes

/-- The step leads from one place to another and overlooks the
change. -/
abbrev Passes {α : Type} (B : Blind) (d d' : Nat) (step : Build α) : Prop :=
  Overlooks B.change (B.Within d) (B.Within d') step

variable {α β : Type} (B : Blind) {d d' : Nat} {step : Build α} {w w' : Workspace} {s : Scopes}

/-- Some scopes are at the place where the step begins. -/
theorem passes_of_at (h : ∀ s, B.At d s → B.Passes d d' step) : B.Passes d d' step :=
  fun w hw => h w.context.scopes hw w hw

/-- A change of what stands beside the scopes. -/
theorem Passes.beside {B : Blind} {f : Workspace → Workspace}
    (hf : ∀ w : Workspace, f (w.changed B.change) = (f w).changed B.change)
    (hscopes : ∀ w, (f w).context.scopes = w.context.scopes) : B.Passes d d (modify f) := by
  refine Overlooks.modify (fun w _ => hf w) fun w hw => ?_
  unfold Within
  rw [hscopes]
  exact hw

-- ============================================= counters and copies

/-- Counters stand beside the scopes. -/
theorem passes_of_tallies (h : Tallies step)
    (hrun : ∀ w : Workspace, step (w.changed B.change) = changedEnd B.change (step w)) :
    B.Passes d d step := by
  intro w hw
  refine ⟨hrun w, fun a w' ha => ?_⟩
  obtain ⟨counters, rfl⟩ := h w a w' ha
  exact hw

theorem allocate_passes (name : String) (n : Nat) : B.Passes d d (allocate name n) := by
  refine B.passes_of_tallies (allocate_tallies name n) fun w => ?_
  rw [allocate, get_bind_apply, get_bind_apply]
  show (ofExcept _ (w.context.counters.allocate name n) >>= _) (w.changed B.change) = _
  cases w.context.counters.allocate name n with
  | ok p => rfl
  | error e => rfl

theorem markWindow_passes (name : String) : B.Passes d d (markWindow name) := by
  refine B.passes_of_tallies (markWindow_tallies name) fun w => ?_
  rw [markWindow, get_bind_apply, get_bind_apply]
  show (ofExcept _ (w.context.counters.markWindow name) >>= _) (w.changed B.change) = _
  cases w.context.counters.markWindow name with
  | ok p => rfl
  | error e => rfl

/-- Counters are changed without a look at what passes. -/
theorem passes_stepwise : Stepwise fun step => B.Passes d d step where
  pure _ := .pure
  bind h hf := h.bind hf
  markWindow := B.markWindow_passes
  allocate := B.allocate_passes

-- =============================================================== names

/-- A lookup is one of the operations. -/
theorem resolve_passes (name : String) : B.Passes d d (resolve name) := by
  refine .onScopes (fun w hw => ?_) fun w hw => ?_
  · have hfind := B.find? hw name
    rw [Scopes.resolve_eq, Scopes.resolve_eq, hfind, B.recordAll]
    rw [Scopes.readOf, Scopes.readOf, hfind]
  · rw [Scopes.resolve_eq]
    exact B.recordAll_at hw _

/-- A use of a binding records the reads of its value. -/
theorem useLocal_passes (name : String) (slot : Nat) : B.Passes d d (useLocal name slot) := by
  refine .get_bind (fun _ _ => rfl) fun v => ?_
  split
  · exact .fail _
  · rename_i bound _
    refine .bind (.onScopes ?_ ?_) fun _ =>
      (B.passes_stepwise.relocate bound.value).bind fun _ => .pure
    · exact fun w _ => congrArg (Prod.mk ()) (B.recordAll _ bound.reads)
    · exact fun w hw => B.recordAll_at hw bound.reads

/-- A name is looked up and then loaded. -/
theorem useName_passes (catalog : Catalog) (name : String) :
    B.Passes d d (useName catalog name) := by
  refine (B.resolve_passes name).bind fun found => ?_
  cases found with
  | some symbol =>
      show B.Passes d d (useSymbol symbol)
      unfold useSymbol
      split
      all_goals first | exact .pure | exact B.useLocal_passes _ _ | exact .fail _
  | none =>
      show B.Passes d d (useGlobal catalog name)
      unfold useGlobal
      split
      · split
        · exact .pure
        · exact .pure
        · exact .fail _
      · split
        · exact .fail _
        · exact .fail _

/-- The current row is found by a lookup, and its columns are read. -/
theorem currentRow_passes : B.Passes d d currentRow := by
  have hreads (names : List String) : B.Passes d d
      (forIn names PUnit.unit fun name _ =>
        discard (resolve name) >>= fun _ => pure (ForInStep.yield PUnit.unit)) := by
    induction names with
    | nil => exact .pure
    | cons name names ih =>
        rw [List.forIn_cons]
        refine ((B.resolve_passes name).discard.bind fun _ => .pure).bind fun next => ?_
        cases next with
        | done u => exact .pure
        | yield u => exact ih
  refine .get_bind (fun w hw => ?_) fun v => ?_
  · simp only [Workspace.changed, B.heading? hw]
  · split
    · exact .fail _
    · exact (hreads _).bind fun _ => .pure

-- ============================================================== levels

/-- A level is opened for the type. -/
theorem push_passes (type : Option DataType) (mode : FoldMode) :
    B.Passes d (B.opened d) (onContext (·.push type mode)) := by
  refine Overlooks.modify (fun w hw => ?_) fun w hw => B.enter_at hw _
  have hpush : (B.change w.context.scopes).push type = B.change (w.context.scopes.push type) := by
    unfold Scopes.push
    rw [B.level, B.enter hw]
  unfold Context.push changed
  dsimp only
  rw [hpush]

/-- Closing a level leads back to where it was opened. -/
theorem pop_at_eq_ok {c : Context} {captured : Captured} (h : B.At d s)
    (hc : B.At (B.opened d) c.scopes) (hpop : c.pop.1 = .ok captured) : B.At d c.pop.2.scopes := by
  unfold Context.pop at hpop ⊢
  cases hscopes : c.scopes.pop with
  | error e =>
      rw [hscopes] at hpop
      cases hpop
  | ok p =>
      rw [hscopes] at hpop
      dsimp only at hpop ⊢
      cases hcounters : c.counters.pop with
      | error e =>
          rw [hcounters] at hpop
          cases hpop
      | ok q => exact B.pop_at h hc hscopes

/-- A level is left where it was opened, so the place at the beginning is
one that is known. -/
theorem leave_passes (h : B.At d s) : B.Passes (B.opened d) d leave :=
  .ofContext (fun _ hw => pop_changed (B.pop h hw)) fun _ _ hw hpop => B.pop_at_eq_ok h hw hpop

/-- The level is emptied for a type that is given, so the heading of the
old scope is not asked for. -/
theorem reenter_passes (h : B.At d s) (type : DataType) :
    B.Passes (B.opened d) (B.opened d) (ofContext (·.reenter type)) := by
  refine .ofContext (fun w hw => ?_) fun w scope hw hreenter => ?_
  · unfold Context.reenter
    dsimp only
    rw [B.pop h hw]
    cases hpop : w.context.scopes.pop with
    | error e => rfl
    | ok p =>
        have hp : B.At d p.2 := B.pop_at h hw hpop
        have hpush (type : DataType) : (B.change p.2).push type = B.change (p.2.push type) := by
          unfold Scopes.push
          rw [B.level, B.enter hp]
        exact congrArg (fun scopes => (Except.ok p.1, Context.mk scopes _)) (hpush type)
  · unfold Context.reenter at hreenter ⊢
    cases hpop : w.context.scopes.pop with
    | error e =>
        rw [hpop] at hreenter
        cases hreenter
    | ok p => exact B.enter_at (B.pop_at h hw hpop) _

/-- The check of the base is not in the scopes. -/
theorem enterRestrict_passes (base : Node) : B.Passes d (B.opened d) (enterRestrict base) := by
  unfold enterRestrict
  split
  · exact B.push_passes _ _
  · exact .fail _

/-- A restriction is made of the level that it leaves. -/
theorem restrict_passes (h : B.At d s) (base predicate : Node) :
    B.Passes (B.opened d) d (restrict base predicate) := by
  refine (B.leave_passes h).bind fun captured => ?_
  dsimp only
  split
  · exact .fail_bind _
  · split
    · exact (Overlooks.ofExcept.discard).bind fun _ => .pure
    · exact .pure

/-- A binding begins with a tracker of its own. -/
theorem beginLocal_passes : B.Passes d (B.tracked d) beginLocal := by
  have htrack : B.Passes d (B.tracked d) (onScopes fun s => ((), s.trackReads)) :=
    .onScopes (fun _ hw => congrArg (Prod.mk ()) (B.trackReads hw))
      fun _ hw => B.trackReads_at hw
  exact htrack.bind fun _ => Passes.beside (fun _ => rfl) fun _ => rfl

theorem restoreCounter_passes : B.Passes d d restoreCounter := by
  refine .beside (fun w => ?_) fun w => ?_
  · obtain ⟨context, locals, pending, frames⟩ := w
    cases pending with
    | nil => rfl
    | cons saved rest => rfl
  · obtain ⟨context, locals, pending, frames⟩ := w
    cases pending with
    | nil => rfl
    | cons saved rest => rfl

/-- A binding takes the reads off its own tracker, so whoever tracks
further out has seen the same. -/
theorem bindLocal_passes (name : String) (value : Node) :
    B.Passes (B.tracked d) d (bindLocal name value) := by
  refine .get_bind (fun w _ => ?_) fun v => ?_
  · simp only [Workspace.changed, B.level]
  have htake : B.Passes (B.tracked d) d (onScopes (·.takeReads)) :=
    .onScopes (fun _ hw => B.takeReads hw) fun _ hw => B.takeReads_at hw
  refine htake.bind fun reads => B.restoreCounter_passes.bind fun _ w hw => ?_
  have hlocals : (w.changed B.change).locals = w.locals := rfl
  have hscopes : (w.changed B.change).context.scopes = B.change w.context.scopes := rfl
  rw [get_bind_apply, get_bind_apply, hlocals, hscopes, B.add hw]
  cases hadd : w.context.scopes.add
      { name, kind := .bound w.locals.length, type := value.dataType } with
  | error e => exact ⟨rfl, fun _ _ h => nomatch h⟩
  | ok scopes =>
      refine ⟨rfl, fun a w' ha => ?_⟩
      cases ha
      exact B.add_at hw hadd

theorem enterBlock_passes : B.Passes d (B.opened d) enterBlock :=
  (B.push_passes none .inherit).bind fun _ => .get_bind (fun _ _ => rfl) fun _ => .pure

/-- A block closes its own level. -/
theorem block_passes (h : B.At d s) (first : Nat) (body : Node) :
    B.Passes (B.opened d) d (block first body) := by
  refine (B.leave_passes h).discard.bind fun _ => .get_bind (fun _ _ => rfl) fun v => ?_
  have hset : B.Passes d d (modify fun w => { w with locals := v.locals.take first }) :=
    .beside (fun _ => rfl) fun _ => rfl
  exact hset.bind fun _ => .pure

-- ========================================================= field lists

theorem openFrame_passes (base : Node) (allBut : Bool) : B.Passes d d (openFrame base allBut) :=
  .beside (fun _ => rfl) fun _ => rfl

/-- A list opens its level. -/
theorem enterFields_passes (base : Node) (allBut : Bool) :
    B.Passes d (B.opened d) (enterFields base allBut) := by
  unfold enterFields
  split
  · exact .fail_bind _
  · exact (B.push_passes _ _).bind fun _ => B.openFrame_passes base allBut

/-- A list that follows another one opens nothing. -/
theorem chainFields_passes (base : Node) (allBut : Bool) :
    B.Passes d d (chainFields base allBut) := by
  unfold chainFields
  split
  · exact .fail_bind _
  · exact B.openFrame_passes base allBut

/-- A key is a lookup. -/
theorem orderKey_passes (name : String) (descending grouped : Bool) :
    B.Passes d d (orderKey name descending grouped) := by
  refine (B.resolve_passes name).bind fun found => ?_
  split
  · split
    · exact .pure
    · exact .fail _
  · exact .fail _

theorem orderKeys_passes (keys : List OrderKey) : B.Passes d d (orderKeys keys) := by
  induction keys with
  | nil => exact .pure
  | cons key rest ih =>
      refine ((B.orderKey_passes _ _ _).located _).bind fun _ => ?_
      exact ih.bind fun _ => .pure

theorem beginField_passes : B.Passes d (B.opened d) beginField := by
  refine frame_overlooks.bind fun f => (B.push_passes _ _).bind fun _ => ?_
  exact Passes.beside (fun _ => rfl) fun _ => rfl

/-- A level that is kept open is emptied, and stays the same one. -/
theorem closeFields_passes (h : B.At d s) (keepOpen : Bool) (type : DataType) :
    B.Passes (B.opened d) (if keepOpen then B.opened d else d) (closeFields keepOpen type) := by
  cases keepOpen with
  | true =>
      refine .bind (.get_bind (fun _ _ => rfl) fun _ => .pure) fun c => ?_
      exact (B.reenter_passes h type).discard.bind fun _ => .pure
  | false => exact (B.leave_passes h).bind fun _ => .pure

/-- The output of a list is put together from what the fields have left. -/
theorem finishFields_passes (h : B.At d s) (base : Node) (order : List Segment)
    (entries : List (FieldSpec Segment)) (keepOpen : Bool) :
    B.Passes (B.opened d) (if keepOpen then B.opened d else d)
      (finishFields base order entries keepOpen) := by
  refine frame_overlooks.bind fun f => ?_
  have hclose : B.Passes (B.opened d) (B.opened d)
      (modify fun w => { w with frames := w.frames.tail }) := .beside (fun _ => rfl) fun _ => rfl
  refine hclose.bind fun _ => ?_
  refine (fieldItems_overlooks f entries).bind fun items => ?_
  refine Overlooks.ofExcept.bind fun output => ?_
  exact (B.closeFields_passes h keepOpen _).bind fun _ => .pure

-- ============================================================ the walk

/-- No expression notices the change. -/
def discipline (catalog : Catalog) : Discipline catalog where
  Makes := fun _ step _ => ∀ d, B.Passes d d step
  Builds := fun keepOpen e => ∀ d,
    B.Passes d (if keepOpen && e.isFields then B.opened d else d) (expression catalog keepOpen e)
  Binds := fun bindings => ∀ d, B.Passes d d (blockBindings catalog bindings)
  Lists := fun entries => ∀ d, B.Passes d d (fieldEntries catalog entries)
  pure := fun _ _ => .pure
  throw := fun f _ => .throw f
  bind := fun h hrest d => (h d).bind fun a => hrest a d
  frame := fun _ h => h
  located := fun mark h d => (h d).located mark
  uncallable := by
    intro _ name d
    refine .get_bind (fun w hw => ?_) fun v => ?_
    · show (if ((B.change w.context.scopes).find? name).isSome then _ else _) = _
      rw [B.find? hw]
    · split
      · exact .fail _
      · exact .fail _
  builtin := fun link _ _ _ =>
    (B.passes_stepwise.noteWindow link).bind fun _ =>
      (B.passes_stepwise.allocateFor link).bind fun _ => .pure
  function := fun link _ _ _ => (B.passes_stepwise.allocateFor link).bind fun _ => .pure
  fold := fun _ _ _ _ => (B.allocate_passes _ _).bind fun _ => .pure
  name := fun name _ => B.useName_passes catalog name
  currentRow := fun _ => B.currentRow_passes
  restrict := fun base _ h d => B.passes_of_at fun _ hd =>
    (B.enterRestrict_passes base).bind fun _ => (h (B.opened d)).bind fun p =>
      B.restrict_passes hd base p
  binds_nil := fun _ => .pure
  binds_cons := fun h hrest d => B.beginLocal_passes.bind fun _ => (h (B.tracked d)).bind fun n =>
    ((B.bindLocal_passes _ n).located _).bind fun _ => hrest d
  block := fun hbindings h d => B.passes_of_at fun _ hd => B.enterBlock_passes.bind fun first =>
    (hbindings (B.opened d)).bind fun _ => (h (B.opened d)).bind fun n =>
      B.block_passes hd first n
  lists_nil := fun _ => .pure
  lists_plain := fun h d => (h d).bind fun _ => .pure
  lists_computed := by
    intro name mark value rest h hrest d
    refine B.passes_of_at fun _ hd => (renameSource_overlooks value).bind fun source => ?_
    cases source with
    | some source => exact (hrest d).bind fun _ => .pure
    | none =>
        refine B.beginField_passes.bind fun _ => (h (B.opened d)).bind fun n => ?_
        refine ((endField_overlooks (B.leave_passes hd) name n).located mark).bind fun _ => ?_
        exact (hrest d).bind fun _ => .pure
  closed := by
    intro keepOpen e hfields h d
    rw [hfields, Bool.and_false]
    exact h d
  makes := fun h => h
  fields := by
    intro keepOpen mark base allBut order entries hbase hentries d
    refine B.passes_of_at fun _ hd => .located mark ((hbase d).bind fun node => ?_)
    have hlist : B.Passes (B.opened d)
        (if keepOpen && (Expr.fields mark base ⟨allBut, order, entries⟩).isFields
          then B.opened d else d)
        (orderKeys order >>= fun keys => fieldEntries catalog entries >>= fun fields =>
          finishFields node keys fields keepOpen) := by
      refine (B.orderKeys_passes order).bind fun keys => ?_
      refine (hentries (B.opened d)).bind fun fields => ?_
      rw [Expr.isFields, Bool.and_true]
      exact B.finishFields_passes hd node keys fields keepOpen
    cases base.isFields with
    | true => exact (B.chainFields_passes node allBut).bind fun _ => hlist
    | false => exact (B.enterFields_passes node allBut).bind fun _ => hlist

/-- Building an expression does not notice the change. -/
theorem expression_passes (catalog : Catalog) (e : Expr) :
    B.Passes d d (expression catalog false e) :=
  (B.discipline catalog).expression e d

/-- Nor does building the entries of a list. -/
theorem fieldEntries_passes (catalog : Catalog) (entries : List FieldEntry) :
    B.Passes d d (fieldEntries catalog entries) :=
  (B.discipline catalog).walkEntries entries d

end Blind

end RelQuery
