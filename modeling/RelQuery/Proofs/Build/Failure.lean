/-
What a step that fails leaves in the context.

A step keeps what it changed up to its failure, and nobody closes the
levels that are open then. So a failure has one of two endings: no level
was open that the step itself had opened, and the context is what it
was but for noted reads and counted slots; or there was one, and the
context is deeper than before (`Context.Falls`). Nothing lies between
the two, because all checks that stand after the closing of a level are
made with the level gone.

The second ending cannot be undone by later steps. Inside a level it is
enough to know that a failure does not take levels away (`Sinks`).

A step that opens no level ends in the first way, and as a step that
is done keeps the context as well (`Steady`), so do several of them in a
row. Here are those that look up names; counting and copying follow by
`Stepwise`.
-/
import RelQuery.Proofs.Build.Statement

namespace RelQuery

open Workspace

namespace Context

/-- The same open levels later on: noted reads and counted slots aside,
nothing has changed. -/
structure Kept (c c' : Context) : Prop where
  scopes : c.scopes.Widens c'.scopes
  counters : c'.counters = c.counters.update fun _ => c'.counters.current
  enabled : c'.counters.current.enabled = c.counters.current.enabled
  refused : c.counters.current.enabled = false → c'.counters.current = c.counters.current

/-- How a failure leaves a context. -/
def Falls (c c' : Context) : Prop :=
  c.Kept c' ∨ c.depth < c'.depth

variable {c c' c'' : Context}

namespace Kept

theorem refl (c : Context) : Kept c c :=
  ⟨.refl _, (Counters.update_current _).symm, rfl, fun _ => rfl⟩

theorem trans (h : Kept c c') (h' : Kept c' c'') : Kept c c'' where
  scopes := h.scopes.trans h'.scopes
  counters := h'.counters.trans (by rw [h.counters, Counters.update_update])
  enabled := h'.enabled.trans h.enabled
  refused := fun hoff => by rw [h'.refused (h.enabled.trans hoff), h.refused hoff]

theorem depth (h : Kept c c') : c'.depth = c.depth :=
  Nat.succ.inj h.scopes.levels.length_eq.symm

end Kept

namespace Falls

theorem refl (c : Context) : Falls c c :=
  .inl (.refl c)

/-- No ending takes a level away. -/
theorem depth_le (h : Falls c c') : c.depth ≤ c'.depth := by
  rcases h with hkept | hdeeper
  · exact Nat.le_of_eq hkept.depth.symm
  · exact Nat.le_of_lt hdeeper

/-- Steps before the failure have kept the context. -/
theorem of_kept (h : Kept c c') (h' : Falls c' c'') : Falls c c'' := by
  rcases h' with hkept | hdeeper
  · exact .inl (h.trans hkept)
  · exact .inr (h.depth ▸ hdeeper)

end Falls

end Context

theorem Workspace.Grows.kept {w w' : Workspace} {slots : List Nat} (h : w.Grows w' slots) :
    w.context.Kept w'.context :=
  ⟨h.scopes, h.counters, h.enabled, h.refused⟩

theorem Workspace.Widens.depth {w w' : Workspace} {slots : List Nat} (h : w.Widens w' slots) :
    w'.context.depth = w.context.depth :=
  Nat.succ.inj h.scopes.levels.length_eq.symm

namespace Build

variable {α β : Type} {w w' w₁ : Workspace} {e : BuildFault}

-- ==================================================== running steps

/-- Of two steps the first fails, or the second does where the first has
led. -/
theorem bind_eq_error {x : Build α} {f : α → Build β} :
    (x >>= f) w = .error e w' ↔
      x w = .error e w' ∨ ∃ a w₁, x w = .ok a w₁ ∧ f a w₁ = .error e w' := by
  show EStateM.bind x f w = .error e w' ↔ _
  unfold EStateM.bind
  cases x w with
  | ok a w₁ => simp
  | error e₁ w₁ => simp

/-- A mark changes the fault, not what it leaves. -/
theorem located_eq_error {mark : Nat} {x : Build α} (h : located mark x w = .error e w') :
    ∃ e', x w = .error e' w' := by
  unfold located at h
  cases hx : x w with
  | ok a w₁ =>
      rw [hx] at h
      cases h
  | error e' w₁ =>
      rw [hx] at h
      cases h
      exact ⟨e', rfl⟩

/-- Only the result is thrown away. -/
theorem discard_eq_error {x : Build α} (h : discard x w = .error e w') : x w = .error e w' := by
  have hmap : EStateM.map (fun _ => PUnit.unit) x w = .error e w' := h
  unfold EStateM.map at hmap
  cases hx : x w with
  | ok a w₁ =>
      rw [hx] at hmap
      cases hmap
  | error e₁ w₁ =>
      rw [hx] at hmap
      cases hmap
      rfl

/-- An outcome is passed on, and an error changes nothing. -/
theorem ofExcept_eq_error {ε : Type} {wrap : ε → BuildError} {r : Except ε α}
    (h : ofExcept wrap r w = .error e w') : w' = w := by
  cases r with
  | ok a => cases h
  | error e₁ =>
      cases h
      rfl

/-- A step that ends well keeps the context. -/
def Steady (step : Build α) : Prop :=
  ∀ w a w', step w = .ok a w' → w.context.Kept w'.context

/-- What turns trees into others keeps the context. -/
theorem Turns.steady {given : List Node} {step : Build α} {made : α → List Node}
    (h : Turns given step made) : Steady step := by
  intro w a w' ha
  obtain ⟨slots, hgrows, -, -⟩ := h w a w' ha
  exact hgrows.kept

/-- Looking keeps the context. -/
theorem Looks.steady {P : α → Prop} {step : Build α} (h : Looks step P) : Steady step := by
  intro w a w' ha
  obtain ⟨rfl, -⟩ := h w a w' ha
  exact .refl _

/-- A step that fails keeps the context or leaves a level open. -/
def Falling (step : Build α) : Prop :=
  ∀ w e w', step w = .error e w' → w.context.Falls w'.context

/-- A step that fails leaves at least the levels that were open. -/
def Sinks (step : Build α) : Prop :=
  ∀ w e w', step w = .error e w' → w.context.depth ≤ w'.context.depth

namespace Falling

variable {step : Build α} {f : α → Build β}

theorem pure (a : α) : Falling (pure a) :=
  fun _ _ _ h => nomatch h

theorem throw (e : BuildFault) : Falling (throw e : Build α) := by
  rintro w _ _ ⟨⟩
  exact .refl _

theorem fail (e : BuildError) : Falling (fail e : Build α) :=
  throw _

theorem ofExcept {ε : Type} {wrap : ε → BuildError} {r : Except ε α} :
    Falling (ofExcept wrap r) := by
  cases r with
  | ok a => exact pure a
  | error e => exact fail _

/-- The first step fails in one of the two ways, or it is done and has kept
the context for the second. -/
theorem bind (h : Falling step) (hok : Steady step) (hf : ∀ a, Falling (f a)) :
    Falling (step >>= f) := by
  intro w e w' he
  obtain hstep | ⟨a, w₁, ha, hfa⟩ := bind_eq_error.mp he
  · exact h w e w' hstep
  · exact .of_kept (hok w a w₁ ha) (hf a w₁ e w' hfa)

theorem map (h : Falling step) (g : α → β) : Falling (step >>= fun a => Pure.pure (g a)) := by
  intro w e w' he
  obtain hstep | ⟨a, w₁, -, hpure⟩ := bind_eq_error.mp he
  · exact h w e w' hstep
  · cases hpure

theorem get_bind {f : Workspace → Build β} (h : ∀ w, Falling (f w)) : Falling (get >>= f) :=
  fun w e w' he => h w w e w' he

/-- A mark changes the fault, not what it leaves. -/
theorem located {mark : Nat} (h : Falling step) : Falling (located mark step) := by
  intro w e w' he
  obtain ⟨e', he'⟩ := located_eq_error he
  exact h w e' w' he'

theorem sinks (h : Falling step) : Sinks step :=
  fun w e w' he => (h w e w' he).depth_le

end Falling

namespace Sinks

variable {step : Build α} {f : α → Build β}

/-- Inside a level it is enough that the steps before the failure leave as
many levels as they find. -/
theorem bind (h : Sinks step)
    (hok : ∀ w a w', step w = .ok a w' → w'.context.depth = w.context.depth)
    (hf : ∀ a, Sinks (f a)) : Sinks (step >>= f) := by
  intro w e w' he
  obtain hstep | ⟨a, w₁, ha, hfa⟩ := bind_eq_error.mp he
  · exact h w e w' hstep
  · rw [← hok w a w₁ ha]
    exact hf a w₁ e w' hfa

theorem map (h : Sinks step) (g : α → β) : Sinks (step >>= fun a => Pure.pure (g a)) := by
  intro w e w' he
  obtain hstep | ⟨a, w₁, -, hpure⟩ := bind_eq_error.mp he
  · exact h w e w' hstep
  · cases hpure

end Sinks

-- ============================================================ calls

theorem allocate_falls (name : String) (n : Nat) : Falling (allocate name n) :=
  .get_bind fun _ => .bind .ofExcept Looks.ofExcept.steady fun _ _ _ _ h => nomatch h

theorem markWindow_falls (name : String) : Falling (markWindow name) :=
  .get_bind fun _ => .bind .ofExcept Looks.ofExcept.steady fun _ _ _ _ h => nomatch h

/-- Steps that keep the context if they are done, and fail in one of the two
ways if not. -/
theorem falling_stepwise : Stepwise fun step => Falling step ∧ Steady step where
  pure a := ⟨.pure a, (Looks.pure trivial : Looks _ fun _ => True).steady⟩
  bind h hf := by
    refine ⟨h.1.bind h.2 fun a => (hf a).1, fun w b w' hb => ?_⟩
    obtain ⟨a, w₁, ha, hb⟩ := bind_eq_ok.mp hb
    exact (h.2 w a w₁ ha).trans ((hf a).2 w₁ b w' hb)
  markWindow name := ⟨markWindow_falls name, fun _ _ _ h => (markWindow_grows h).kept⟩
  allocate name n := ⟨allocate_falls name n, fun _ _ _ h => (allocate_grows h).kept⟩

-- ============================================================ names

/-- A binding that is missing fails at once; a copy may have slots refused. -/
theorem useLocal_falls (name : String) (slot : Nat) : Falling (useLocal name slot) := by
  refine .get_bind fun w => ?_
  split
  · exact .fail _
  · rename_i bound _
    intro w e w' he
    obtain hscopes | ⟨u, w₁, hscopes, hcopy⟩ := bind_eq_error.mp he
    · cases hscopes
    · have hreads : w.Grows w₁ [] := by
        cases hscopes
        exact .onScopes w (.foldl_record w.context.scopes bound.reads)
      exact .of_kept hreads.kept ((falling_stepwise.relocate bound.value).1.map _ w₁ e w' hcopy)

/-- A symbol that is no value fails at once. -/
theorem useSymbol_falls (symbol : Symbol) : Falling (useSymbol symbol) := by
  unfold useSymbol
  split
  · exact .pure _
  · exact .pure _
  · exact .pure _
  · exact .pure _
  · exact useLocal_falls _ _
  · exact .fail _

/-- A name that is not in the catalog fails at once. -/
theorem useGlobal_falls (catalog : Catalog) (name : String) : Falling (useGlobal catalog name) := by
  unfold useGlobal
  split
  · split
    · exact .pure _
    · exact .pure _
    · exact .fail _
  · split
    · exact .fail _
    · exact .fail _

theorem resolve_falls (name : String) : Falling (resolve name) :=
  fun _ _ _ h => nomatch h

theorem resolve_steady (name : String) : Steady (resolve name) := by
  have h : Turns [] (resolve name) fun _ => [] := .resolve name
  exact h.steady

/-- A lookup comes first, and what follows fails at once or copies. -/
theorem useName_falls (catalog : Catalog) (name : String) : Falling (useName catalog name) := by
  refine (resolve_falls name).bind (resolve_steady name) fun found => ?_
  cases found with
  | some symbol => exact useSymbol_falls symbol
  | none => exact useGlobal_falls catalog name

/-- Reading all columns does not fail. -/
theorem currentRow_falls : Falling currentRow := by
  have hreads (names : List String) (w w' : Workspace) (e : BuildFault) :
      (forIn names PUnit.unit fun name _ =>
        discard (resolve name) >>= fun _ => pure (ForInStep.yield PUnit.unit)) w
        ≠ .error e w' := by
    induction names generalizing w with
    | nil => exact fun h => nomatch h
    | cons name names ih =>
        rw [List.forIn_cons]
        intro h
        obtain hread | ⟨next, w₁, hread, hrest⟩ := bind_eq_error.mp h
        · cases hread
        · cases hread
          exact ih _ hrest
  refine .get_bind fun w => ?_
  split
  · exact .fail _
  · intro w e w' he
    obtain hloop | ⟨u, w₁, -, hpure⟩ := bind_eq_error.mp he
    · exact absurd hloop (hreads _ w w' e)
    · cases hpure

/-- A written heading is looked up, and fails at once. -/
theorem heading_falls (catalog : Catalog) (columns : List (String × TypeExpr)) :
    Falling (heading catalog columns) := by
  unfold heading
  split
  · exact .pure _
  · exact .throw _

end Build

end RelQuery
