/-
What a step of building does to the workspace, and to the trees it is
given.

`Widens w w' slots` compares the workspace after some steps with the
one before: every level that was open is open, all stacks are as high
as before, only the counter in force has changed, and it has handed out
exactly `slots`. `Grows` says the same within one field, where the
field's own count grows along with the total.

`Turns given step made` is what the walk promises of each step. The
step takes trees that are already there and makes others; the slots of
the new trees are those of the old ones and the slots handed out on the
way, and no field list has come apart. Steps are put together with
`>>=`, and so are these facts, the trees that one makes being given to
the next. `Relates` is the shape of such a promise and `Composes` what
two states have to satisfy for that; the rules of sequencing need no
more, and serve every other promise of this kind as well.
-/
import RelQuery.Build.Basic
import RelQuery.Proofs.Context.Widening
import RelQuery.Proofs.Node.Slot

namespace RelQuery

namespace Workspace

/-- The counter in force. -/
def counter (w : Workspace) : Counter :=
  w.context.counters.current

/-- The same open levels later on, with `slots` handed out. -/
structure Widens (w w' : Workspace) (slots : List Nat) : Prop where
  scopes : w.context.scopes.Widens w'.context.scopes
  counters : w'.context.counters = w.context.counters.update fun _ => w'.counter
  enabled : w'.counter.enabled = w.counter.enabled
  total : w'.counter.total = w.counter.total + slots.length
  numbered : slots.Perm (List.range' w.counter.total slots.length)
  locals : w'.locals = w.locals
  pending : w'.pending = w.pending
  frames : w'.frames = w.frames

/-- The same open levels later on in the same field. -/
structure Grows (w w' : Workspace) (slots : List Nat) : Prop extends Widens w w' slots where
  segments : w'.counter.segments = w.counter.segments + slots.length
  refused : w.counter.enabled = false → w'.counter = w.counter

/-- Every field list in a bound value is partitioned. -/
def IsTidy (w : Workspace) : Prop :=
  ∀ l ∈ w.locals, l.value.IsTidy

variable {w w' w'' : Workspace} {xs ys : List Nat}

namespace Widens

/-- What is handed out first comes first, so the numbers go on where they
stopped. -/
theorem trans (h : Widens w w' xs) (h' : Widens w' w'' ys) : Widens w w'' (xs ++ ys) where
  scopes := h.scopes.trans h'.scopes
  counters := by rw [h'.counters, h.counters, Counters.update_update]
  enabled := h'.enabled.trans h.enabled
  total := by rw [h'.total, h.total, List.length_append, Nat.add_assoc]
  numbered := by
    have hy := h'.numbered
    rw [h.total] at hy
    rw [List.length_append, ← List.range'_append_1]
    exact h.numbered.append hy
  locals := h'.locals.trans h.locals
  pending := h'.pending.trans h.pending
  frames := h'.frames.trans h.frames

/-- Bound values are not touched, so they stay as they are. -/
theorem isTidy (h : Widens w w' xs) (hw : w.IsTidy) : w'.IsTidy := by
  rw [IsTidy, h.locals]
  exact hw

end Widens

namespace Grows

theorem refl (w : Workspace) : Grows w w [] where
  scopes := .refl _
  counters := (Counters.update_current _).symm
  enabled := rfl
  total := rfl
  numbered := .nil
  locals := rfl
  pending := rfl
  frames := rfl
  segments := rfl
  refused := fun _ => rfl

theorem trans (h : Grows w w' xs) (h' : Grows w' w'' ys) : Grows w w'' (xs ++ ys) where
  toWidens := h.toWidens.trans h'.toWidens
  segments := by rw [h'.segments, h.segments, List.length_append, Nat.add_assoc]
  refused := fun hw => by rw [h'.refused (h.enabled.trans hw), h.refused hw]

theorem isTidy (h : Grows w w' xs) (hw : w.IsTidy) : w'.IsTidy :=
  h.toWidens.isTidy hw

/-- Only scopes have changed. -/
theorem onScopes (w : Workspace) {scopes : Scopes} (h : w.context.scopes.Widens scopes) :
    Grows w { w with context := { w.context with scopes } } [] where
  scopes := h
  counters := (Counters.update_current _).symm
  enabled := rfl
  total := rfl
  numbered := .nil
  locals := rfl
  pending := rfl
  frames := rfl
  segments := rfl
  refused := fun _ => rfl

end Grows

end Workspace

-- ==================================================== running steps

section

variable {ε σ α : Type} {check : α → σ → Bool} {r : EStateM.Result ε σ α}

/-- Whether a run ends with a result and a state that pass a check. -/
def endsWith (check : α → σ → Bool) : EStateM.Result ε σ α → Bool
  | .ok a s => check a s
  | .error .. => false

/-- A check by evaluation gives the run that it looked at. -/
theorem endsWith_eq_true (h : endsWith check r = true) :
    ∃ a s, r = .ok a s ∧ check a s = true := by
  cases r with
  | ok a s => exact ⟨a, s, rfl, h⟩
  | error e s => cases h

/-- A run that ends with no result ends with an error. -/
theorem endsWith_eq_false (h : endsWith (fun _ _ => true) r = false) : ∃ e s, r = .error e s := by
  cases r with
  | ok a s => cases h
  | error e s => exact ⟨e, s, rfl⟩

/-- Whether a run fails with an error that passes a check. -/
def failsWith (check : ε → Bool) : EStateM.Result ε σ α → Bool
  | .ok .. => false
  | .error e _ => check e

/-- A check by evaluation gives the error that it looked at. -/
theorem failsWith_eq_true {check : ε → Bool} (h : failsWith check r = true) :
    ∃ e s, r = .error e s ∧ check e = true := by
  cases r with
  | ok a s => cases h
  | error e s => exact ⟨e, s, rfl, h⟩

end

namespace Build

variable {α β : Type} {w w' : Workspace}

/-- Steps in a row succeed when both do. Every proof about building peels
steps off this way. -/
theorem bind_eq_ok {x : Build α} {f : α → Build β} {b : β} :
    (x >>= f) w = .ok b w' ↔ ∃ a w₁, x w = .ok a w₁ ∧ f a w₁ = .ok b w' := by
  show EStateM.bind x f w = .ok b w' ↔ _
  unfold EStateM.bind
  cases h : x w with
  | ok a w₁ => simp
  | error e w₁ => simp

theorem pure_eq_ok {a b : α} : (pure a : Build α) w = .ok b w' ↔ a = b ∧ w = w' := by
  show EStateM.Result.ok a w = .ok b w' ↔ _
  simp

theorem get_bind_apply (f : Workspace → Build α) : (get >>= f) w = f w w :=
  rfl

theorem fail_ne_ok {e : BuildError} {a : α} : fail e w ≠ .ok a w' := by
  show EStateM.Result.error _ w ≠ .ok a w'
  simp

/-- Only the result is thrown away. -/
theorem discard_eq_ok {x : Build α} {u : Unit} :
    discard x w = .ok u w' ↔ ∃ a, x w = .ok a w' := by
  show EStateM.map (fun _ => PUnit.unit) x w = .ok u w' ↔ _
  unfold EStateM.map
  cases x w with
  | ok a w₁ => simp
  | error e w₁ => simp

/-- A mark only matters to a fault. -/
theorem located_eq_ok {mark : Nat} {x : Build α} {a : α} :
    located mark x w = .ok a w' ↔ x w = .ok a w' := by
  unfold located
  cases x w with
  | ok b w₁ => simp
  | error f w₁ => simp

/-- An outcome is passed on, an error as a fault. -/
theorem ofExcept_eq_ok {ε : Type} {wrap : ε → BuildError} {r : Except ε α} {a : α} :
    ofExcept wrap r w = .ok a w' ↔ r = .ok a ∧ w = w' := by
  cases r with
  | ok b => simp [ofExcept, pure_eq_ok]
  | error e => simp [ofExcept, fail_ne_ok]

-- ===================================================== mere looking

/-- The step leaves the workspace as it is. -/
def Looks (step : Build α) (P : α → Prop) : Prop :=
  ∀ w a w', step w = .ok a w' → w' = w ∧ P a

namespace Looks

variable {step : Build α} {P : α → Prop} {Q : β → Prop}

theorem pure {a : α} (h : P a) : Looks (pure a) P := by
  intro w b w' hb
  cases hb
  exact ⟨rfl, h⟩

theorem fail (e : BuildError) : Looks (fail e) P :=
  fun _ _ _ h => absurd h fail_ne_ok

theorem throw (f : BuildFault) : Looks (throw f) P :=
  fun _ _ _ h => nomatch h

/-- Steps that only look can be put together. -/
theorem bind {f : α → Build β} (h : Looks step P) (hf : ∀ a, P a → Looks (f a) Q) :
    Looks (step >>= f) Q := by
  intro w b w' hb
  obtain ⟨a, w₁, ha, hfa⟩ := bind_eq_ok.mp hb
  obtain ⟨rfl, hp⟩ := h w a w₁ ha
  exact hf a hp _ b w' hfa

theorem get_bind {f : Workspace → Build β} (h : ∀ w, Looks (f w) Q) : Looks (get >>= f) Q :=
  fun w b w' hb => h w w b w' hb

theorem ofExcept {ε : Type} {wrap : ε → BuildError} {r : Except ε α} :
    Looks (ofExcept wrap r) fun a => r = .ok a := by
  intro w a w' h
  obtain ⟨hr, rfl⟩ := ofExcept_eq_ok.mp h
  exact ⟨rfl, hr⟩

end Looks

end Build

-- ========================================================= relations

open Build

/-- A relation between the workspace and trees before a step and those
after it holds of every run that succeeds. -/
def Relates {α : Type} (R : Workspace → List Node → Workspace → List Node → Prop)
    (given : List Node) (step : Build α) (made : α → List Node) : Prop :=
  ∀ w a w', step w = .ok a w' → R w given w' (made a)

/-- The relation can be followed through steps that run in a row, and
says nothing of trees that a step does not look at. -/
structure Composes (R : Workspace → List Node → Workspace → List Node → Prop) : Prop where
  refl : ∀ w given, R w given w given
  trans : ∀ {w w₁ w' : Workspace} {xs ys zs : List Node}, R w xs w₁ ys → R w₁ ys w' zs →
    R w xs w' zs
  frame : ∀ (others : List Node) {w w' : Workspace} {given made : List Node},
    R w given w' made → R w (others ++ given) w' (others ++ made)

namespace Relates

variable {R : Workspace → List Node → Workspace → List Node → Prop} {α β : Type}
  {given : List Node} {step : Build α} {made : α → List Node}

theorem throw (f : BuildFault) : Relates R given (throw f) made :=
  fun _ _ _ h => nomatch h

theorem fail (e : BuildError) : Relates R given (fail e) made :=
  throw _

/-- A mark only matters to a fault. -/
theorem located {mark : Nat} (h : Relates R given step made) :
    Relates R given (located mark step) made :=
  fun w a w' ha => h w a w' (located_eq_ok.mp ha)

theorem get_bind {f : Workspace → Build β} {made' : β → List Node}
    (h : ∀ w, Relates R given (f w) made') : Relates R given (get >>= f) made' :=
  fun w b w' hb => h w w b w' hb

/-- What one step makes is given to the next. -/
theorem bind
    (htrans : ∀ {w w₁ w' : Workspace} {xs ys zs : List Node}, R w xs w₁ ys → R w₁ ys w' zs →
      R w xs w' zs)
    {f : α → Build β} {m : α → List Node} {made : β → List Node} (h : Relates R given step m)
    (hf : ∀ a, Relates R (m a) (f a) made) : Relates R given (step >>= f) made := by
  intro w b w' hb
  obtain ⟨a, w₁, ha, hb⟩ := bind_eq_ok.mp hb
  exact htrans (h w a w₁ ha) (hf a w₁ b w' hb)

/-- A step that gives back what is there. -/
theorem same (hR : Composes R) (a : α) : Relates R (made a) (Pure.pure a) made := by
  intro w b w' h
  obtain ⟨rfl, rfl⟩ := pure_eq_ok.mp h
  exact hR.refl w (made a)

/-- Trees that a step does not look at stand beside those that it makes. -/
theorem frame_left (hR : Composes R) (h : Relates R given step made) (others : List Node) :
    Relates R (others ++ given) step fun a => others ++ made a :=
  fun w a w' ha => hR.frame others (h w a w' ha)

/-- One step after another, and the trees of both. The second does not
look at the trees of the first. -/
theorem append {γ : Type} (hR : Composes R) {rest : Build β} {f : α → β → γ} {m : α → List Node}
    {m' : β → List Node} {made : γ → List Node} (h : Relates R [] step m)
    (h' : Relates R [] rest m') (hmade : ∀ a b, made (f a b) = m a ++ m' b) :
    Relates R [] (step >>= fun a => rest >>= fun b => Pure.pure (f a b)) made := by
  refine bind (R := R) hR.trans h fun a => ?_
  have hrest := h'.frame_left hR (m a)
  rw [List.append_nil] at hrest
  refine bind (R := R) hR.trans hrest fun b => ?_
  rw [← hmade]
  exact same hR _

end Relates

namespace Build

-- ======================================================= made trees

variable {α β : Type}

/-- The slots of the trees are those of the given trees and the ones
handed out, and no field list has come apart. -/
abbrev Turned (w : Workspace) (given : List Node) (w' : Workspace) (made : List Node) : Prop :=
  ∃ slots, w.Grows w' slots ∧ (Node.allSlots given ++ slots).Perm (Node.allSlots made) ∧
    (w.IsTidy → Node.AllTidy given → Node.AllTidy made)

/-- Slots are handed out one step after another and stand for one tree
each, so they compose. -/
theorem turned_composes : Composes Turned where
  refl w given := ⟨[], .refl w, by rw [List.append_nil], fun _ => id⟩
  trans := by
    rintro w w₁ w' given ms made ⟨xs, hgrows, hslots, htidy⟩ ⟨ys, hgrows', hslots', htidy'⟩
    refine ⟨xs ++ ys, hgrows.trans hgrows', ?_, fun hw hg => ?_⟩
    · rw [← List.append_assoc]
      exact (hslots.append_right ys).trans hslots'
    · exact htidy' (hgrows.isTidy hw) (htidy hw hg)
  frame := by
    rintro others w w' given made ⟨slots, hgrows, hslots, htidy⟩
    refine ⟨slots, hgrows, ?_, fun hw hg => ?_⟩
    · rw [Node.allSlots_append, Node.allSlots_append, List.append_assoc]
      exact hslots.append_left _
    · obtain ⟨hothers, hgiven⟩ := List.forall_mem_append.mp hg
      exact Node.allTidy_append.mpr ⟨hothers, htidy hw hgiven⟩

/-- The step makes trees out of given ones, slot by slot. -/
abbrev Turns (given : List Node) (step : Build α) (made : α → List Node) : Prop :=
  Relates Turned given step made

namespace Turns

variable {given : List Node} {step : Build α} {made : α → List Node}

theorem pure {a : α} (hslots : (Node.allSlots given).Perm (Node.allSlots (made a)))
    (htidy : Node.AllTidy given → Node.AllTidy (made a)) :
    Turns given (pure a) made := by
  intro w b w' h
  obtain ⟨rfl, rfl⟩ := pure_eq_ok.mp h
  exact ⟨[], .refl w, by rwa [List.append_nil], fun _ => htidy⟩

/-- Nothing is made anew. -/
theorem same (a : α) : Turns (made a) (Pure.pure a) made :=
  Relates.same turned_composes a

/-- What one step makes is given to the next. -/
theorem bind {f : α → Build β} {m : α → List Node} {made : β → List Node} (h : Turns given step m)
    (hf : ∀ a, Turns (m a) (f a) made) : Turns given (step >>= f) made :=
  Relates.bind (R := Turned) turned_composes.trans h hf

/-- Trees that a step does not look at. -/
theorem frame_left (h : Turns given step made) (others : List Node) :
    Turns (others ++ given) step fun a => others ++ made a :=
  Relates.frame_left turned_composes h others

/-- Trees that a step does not look at, on the other side. -/
theorem frame_right (h : Turns given step made) (others : List Node) :
    Turns (given ++ others) step fun a => made a ++ others := by
  intro w a w' ha
  obtain ⟨slots, hgrows, hslots, htidy⟩ := h w a w' ha
  refine ⟨slots, hgrows, ?_, fun hw hg => ?_⟩
  · rw [Node.allSlots_append, Node.allSlots_append]
    have hswap := (List.perm_append_comm : (Node.allSlots others ++ slots).Perm _).append_left
      (Node.allSlots given)
    rw [← List.append_assoc, ← List.append_assoc] at hswap
    exact hswap.trans (hslots.append_right _)
  · obtain ⟨hgiven, hothers⟩ := List.forall_mem_append.mp hg
    exact Node.allTidy_append.mpr ⟨htidy hw hgiven, hothers⟩

/-- One step after another, and the trees of both. -/
theorem append {γ : Type} {rest : Build β} {f : α → β → γ} {m : α → List Node}
    {m' : β → List Node} {made : γ → List Node} (h : Turns [] step m)
    (h' : Turns [] rest m') (hmade : ∀ a b, made (f a b) = m a ++ m' b) :
    Turns [] (step >>= fun a => rest >>= fun b => Pure.pure (f a b)) made :=
  Relates.append turned_composes h h' hmade

/-- A change of scopes that only notes reads. -/
theorem onScopes {f : Scopes → α × Scopes} (h : ∀ s, Scopes.Widens s (f s).2) :
    Turns given (onScopes f) fun _ => given := by
  intro w a w' ha
  cases ha
  exact ⟨[], .onScopes w (h _), by rw [List.append_nil], fun _ => id⟩

theorem resolve (name : String) : Turns given (resolve name) fun _ => given :=
  onScopes fun s => .resolve s name

end Turns

end Build

end RelQuery
