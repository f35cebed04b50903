/-
Building is balanced.

What is opened along an expression is closed along it, on every stack
of the workspace. A statement that begins with nothing open therefore
ends so, with a counter that refuses folds and has counted none. The
look that a session takes at its context after each statement never
finds a scope left open.
-/
import RelQuery.Proofs.Build.Statement
import RelQuery.Session.Basic

namespace RelQuery

namespace Workspace

variable {w w' : Workspace} {slots : List Nat}

/-- Every stack is as high as before. Open scopes have noted reads at
most, and of the counters only the one in force has changed. -/
structure Balanced (w w' : Workspace) : Prop where
  scopeDepth : w'.context.scopes.depth = w.context.scopes.depth
  counterDepth : w'.context.counters.depth = w.context.counters.depth
  scopes : List.Forall₂ Scope.Widens w.context.scopes.all w'.context.scopes.all
  counters : w'.context.counters = w.context.counters.update fun _ => w'.counter
  total : w.counter.total ≤ w'.counter.total
  trackers : w'.context.scopes.trackers.length = w.context.scopes.trackers.length
  pending : w'.pending.length = w.pending.length
  frames : w'.frames.length = w.frames.length
  locals : w'.locals.length = w.locals.length

theorem Grows.balanced (h : w.Grows w' slots) : w.Balanced w' where
  scopeDepth := Nat.succ.inj h.scopes.levels.length_eq.symm
  counterDepth := by rw [h.counters, Counters.depth_update]
  scopes := h.scopes.levels
  counters := h.counters
  total := by rw [h.total]; exact Nat.le_add_right ..
  trackers := h.scopes.trackers
  pending := by rw [h.pending]
  frames := by rw [h.frames]
  locals := by rw [h.locals]

end Workspace

/-- The scopes of a new statement have nothing to note. -/
theorem Scopes.Widens.fresh {s : Scopes} (h : Scopes.fresh.Widens s) : s = .fresh := by
  obtain ⟨⟨kind, symbols, heading, lookup, level⟩, outer, trackers⟩ := s
  obtain ⟨hlevels, htrackers⟩ := h
  cases hlevels with
  | cons hcurrent houter =>
      cases houter
      obtain ⟨hkind, hlevel, hheading, hsymbols, -, hlookup⟩ := hcurrent
      cases hkind
      cases hlevel
      cases hheading
      cases hsymbols
      cases hlookup rfl
      cases List.length_eq_zero_iff.mp htrackers
      rfl

/-- From a new statement's context back to it: the counter in force
refuses folds, so it has not changed. -/
theorem Workspace.Grows.fresh {w w' : Workspace} {slots : List Nat} (h : w.Grows w' slots)
    (hw : w.context = .fresh) : w'.context = .fresh := by
  have hscopes : w'.context.scopes = .fresh := by
    refine Scopes.Widens.fresh ?_
    have hwidens := h.scopes
    rwa [hw] at hwidens
  have hcounters : w'.context.counters = .fresh := by
    have hrefuses : w.counter.enabled = false := by
      rw [Workspace.counter, hw]
      rfl
    rw [h.counters, h.refused hrefuses, Workspace.counter, Counters.update_current, hw]
    rfl
  obtain ⟨⟨scopes, counters⟩, locals, pending, frames⟩ := w'
  cases hscopes
  cases hcounters
  rfl

-- ========================================================= sessions

/-- What a session raises if a statement leaves a scope open. -/
def Failure.scopeLeftOpen : Failure :=
  .make .internal Code.stackUnderflow "scope left open after statement"

/-- Of the faults of building, only closing what is not open has this
code. -/
theorem BuildError.eq_underflow {e : BuildError} (h : e.code = Code.stackUnderflow) :
    e = .context (.scope .underflow) ∨ e = .context (.counter .underflow) := by
  cases e with
  | type e => cases e <;> cases h
  | allBut e => cases e <;> cases h
  | heading e => cases e <;> cases h
  | context e =>
      cases e with
      | scope e =>
          cases e with
          | duplicate name => cases h
          | underflow => exact .inl rfl
      | counter e =>
          cases e with
          | strayAggregate name => cases h
          | strayWindow name => cases h
          | underflow => exact .inr rfl
  | catalog e =>
      cases e with
      | overload e => cases e <;> cases h
      | kindConflict name kind => cases h
      | loadFailed message => cases h
  | _ => cases h

/-- A fault in building is never that a scope was left open. -/
theorem BuildFault.failure_ne (locate : Nat → Location) (f : BuildFault) :
    f.failure locate ≠ .scopeLeftOpen := by
  intro h
  injection h with hkind hcode hmessage hlocation
  obtain he | he := BuildError.eq_underflow hcode
  · rw [he] at hmessage
    exact absurd hmessage (by decide)
  · rw [he] at hmessage
    exact absurd hmessage (by decide)

namespace SessionStep

variable {α β : Type}

/-- The step ends with nothing open if it begins so, and does not raise
that something was left open. -/
def Settled (step : SessionStep α) : Prop :=
  ∀ s, s.context = .fresh →
    match step s with
    | .ok _ s' => s'.context = .fresh
    | .error f _ => f ≠ .scopeLeftOpen

namespace Settled

variable {step : SessionStep α} {f : α → SessionStep β}

theorem pure (a : α) : Settled (pure a) :=
  fun _ hs => hs

theorem throw {e : Failure} (h : e ≠ .scopeLeftOpen) : Settled (throw e : SessionStep α) :=
  fun _ _ => h

/-- What would come after a failure does not matter. -/
theorem throw_bind {e : Failure} (h : e ≠ .scopeLeftOpen) :
    Settled ((MonadExcept.throw e : SessionStep α) >>= f) :=
  fun _ _ => h

/-- Steps that settle may follow each other. -/
theorem bind (h : Settled step) (hf : ∀ a, Settled (f a)) : Settled (step >>= f) := by
  intro s hs
  have hstep := h s hs
  show match EStateM.bind step f s with
    | .ok _ s' => s'.context = .fresh
    | .error e _ => e ≠ .scopeLeftOpen
  unfold EStateM.bind
  cases hrun : step s with
  | ok a s₁ =>
      rw [hrun] at hstep
      exact hf a s₁ hstep
  | error e s₁ =>
      rw [hrun] at hstep
      exact hstep

theorem get_bind {f : Session → SessionStep β} (h : ∀ s, s.context = .fresh → Settled (f s)) :
    Settled (get >>= f) :=
  fun s hs => h s hs s hs

theorem modify {g : Session → Session} (h : ∀ s, (g s).context = s.context) :
    Settled (modify g : SessionStep Unit) :=
  fun s hs => (h s).trans hs

end Settled

theorem report_settled (e : Event) : Settled (report e) :=
  .modify fun _ => rfl

theorem trace_settled (level : TraceLevel) (e : Event) : Settled (trace level e) := by
  refine .get_bind fun s _ => ?_
  split
  · exact report_settled e
  · exact .pure _

/-- Building settles, since it brings the scopes back. -/
theorem build_settled (sentence : Sentence) (locate : Nat → Location) :
    Settled (build sentence locate) := by
  intro s hs
  unfold build
  cases hbuild : Build.statement s.catalog sentence { context := s.context } with
  | ok statement w =>
      obtain ⟨⟨slots, hgrows⟩, -⟩ := Build.statement_eq_ok hbuild
      exact hgrows.fresh hs
  | error e w => exact e.failure_ne locate

/-- Running settles, since it touches no scope. -/
theorem run_settled (code : List UInt8) : Settled (run code) := by
  refine .get_bind fun s hs => ?_
  split
  · exact .pure _
  · refine Settled.bind (fun _ _ => hs) fun _ => ?_
    split
    · exact .throw fun h => nomatch h
    · exact (report_settled _).bind fun _ => .pure _

/-- Registering settles, since it touches no scope. -/
theorem register_settled (statement : Statement) (start : Location) :
    Settled (register statement start) := by
  refine .get_bind fun s _ => ?_
  split
  · exact .modify fun _ => rfl
  · rename_i e _
    refine .throw fun h => ?_
    unfold refusal at h
    cases hsystem : e.isSystem with
    | true =>
        rw [hsystem] at h
        exact nomatch h
    | false =>
        rw [hsystem] at h
        exact nomatch h

/-- Emitting never reports a scope left open. -/
theorem emit_ne {statement : Statement} {start : Location} {f : Failure}
    (h : emit statement start = .error f) : f ≠ .scopeLeftOpen := by
  unfold emit at h
  split at h
  · cases h
    exact fun h => nomatch h
  · cases hemit : statement.emit with
    | ok code =>
        rw [hemit] at h
        cases h
    | error e =>
        rw [hemit] at h
        cases h
        cases e <;> exact fun h => nomatch h

/-- A statement compiled with nothing open leaves nothing open. -/
theorem statement_settled (text : List Char) (offset : Nat) (source : List Char) :
    Settled (statement text offset source) := by
  refine (trace_settled _ _).bind fun _ => ?_
  cases Sentence.read text with
  | error e => exact .throw_bind fun h => nomatch h
  | ok sentence =>
      refine (build_settled _ _).bind fun statement => .get_bind fun s hs => ?_
      -- nothing was open before, so nothing is left open and the check passes
      have hclosed : (decide (s.context.depth ≠ 0) || !s.context.inSync) = false := by
        rw [hs]
        rfl
      dsimp only
      rw [hclosed, if_neg Bool.false_ne_true]
      cases hemit : emit statement (.ofOffset source (offset + 0)) with
      | error f => exact .throw_bind (emit_ne hemit)
      | ok code =>
          refine (trace_settled _ _).bind fun _ => ?_
          -- the code is listed and run or not, and the statement registered; all of that
          -- settles
          let finish (value : Option Value) : SessionStep Compiled :=
            register statement (.ofOffset source (offset + 0)) >>= fun _ =>
              Pure.pure { text, offset, type := statement.dataType, code, value }
          have hfinish (value : Option Value) : Settled (finish value) :=
            (register_settled _ _).bind fun _ => .pure _
          have hrun : Settled (get >>= fun s : Session =>
              if s.options.execute = true then run code >>= finish
              else Pure.pure none >>= finish) := by
            refine .get_bind fun s _ => ?_
            split
            · exact (run_settled code).bind hfinish
            · exact (Settled.pure none).bind hfinish
          cases Instruction.listCode code with
          | ok listing => exact (trace_settled _ _).bind fun _ => hrun
          | error e => exact hrun

/-- Building is balanced. An expression leaves every stack as high as it
was, and what was open as it was but for noted reads and counted slots.
A statement that begins with nothing open ends so, and a session never
finds a scope that it left open. -/
theorem building_is_balanced :
    (∀ (catalog : Catalog) (e : Expr) (w w' : Workspace) (n : Node),
      Build.expression catalog false e w = .ok n w' → w.Balanced w') ∧
    (∀ (catalog : Catalog) (sentence : Sentence) (s : Statement) (w' : Workspace),
      Build.statement catalog sentence { context := .fresh } = .ok s w' → w'.context = .fresh) ∧
    (∀ (text source : List Char) (offset : Nat) (s s' : Session) (f : Failure),
      s.context = .fresh → statement text offset source s = .error f s' →
        f ≠ .make .internal Code.stackUnderflow "scope left open after statement") := by
  refine ⟨fun catalog e w w' n h => ?_, fun catalog sentence s w' h => ?_,
    fun text source offset s s' f hs h => ?_⟩
  -- an expression only grows the workspace
  · obtain ⟨slots, w₁, hgrows, -, -, rfl⟩ := Build.expression_builds catalog false e w n w' h
    exact hgrows.balanced
  -- a statement that begins with nothing open comes back to that
  · obtain ⟨⟨slots, hgrows⟩, -⟩ := Build.statement_eq_ok h
    exact hgrows.fresh rfl
  -- and a session that settles finds nothing open
  · have hsettled := statement_settled text offset source s hs
    rw [h] at hsettled
    exact hsettled

/-- A sum in an open list, which takes a slot; a function that sums; and
a name that nothing defines. -/
theorem building_is_balanced_sum :
    (∃ n w', Build.expression {} false (.call 0 "sum" [.name 4 "a"])
        { context := Context.fresh.push (some (.relation [⟨"a", .number⟩])) .enabled } = .ok n w' ∧
      w'.counter.total = 1 ∧ Workspace.Balanced
        { context := Context.fresh.push (some (.relation [⟨"a", .number⟩])) .enabled } w') ∧
    (∃ s w', Build.statement {} (.define 0 "total" [("n", .named "number" 13)] none
        (.call 24 "sum" [.name 28 "n"])) { context := .fresh } = .ok s w' ∧
      w'.context = .fresh) ∧
    (∃ f s', statement ['x'] 0 ['x'] {} = .error f s' ∧
      f ≠ .make .internal Code.stackUnderflow "scope left open after statement") := by
  obtain ⟨hexpression, hstatement, hsession⟩ := building_is_balanced
  refine ⟨?_, ?_, ?_⟩
  · have hrun : endsWith (fun _ w' => w'.counter.total == 1)
        (Build.expression {} false (.call 0 "sum" [.name 4 "a"])
          { context := Context.fresh.push (some (.relation [⟨"a", .number⟩])) .enabled })
        = true := by decide +kernel
    obtain ⟨n, w', h, htotal⟩ := endsWith_eq_true hrun
    exact ⟨n, w', h, beq_iff_eq.mp htotal, hexpression _ _ _ _ _ h⟩
  · have hrun : endsWith (fun _ _ => true)
        (Build.statement {} (.define 0 "total" [("n", .named "number" 13)] none
          (.call 24 "sum" [.name 28 "n"])) { context := .fresh }) = true := by decide +kernel
    obtain ⟨s, w', h, -⟩ := endsWith_eq_true hrun
    exact ⟨s, w', h, hstatement _ _ _ _ h⟩
  · have hrun : endsWith (fun _ _ => true) (statement ['x'] 0 ['x'] {}) = false := by
      decide +kernel
    obtain ⟨f, s', h⟩ := endsWith_eq_false hrun
    exact ⟨f, s', h, hsession _ _ _ _ _ _ rfl h⟩

end SessionStep

end RelQuery
