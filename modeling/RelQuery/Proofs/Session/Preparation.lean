/-
What compiling one statement does to a session.

A statement is first prepared: read, built, checked and turned into
code. Preparing looks at the catalog and at the context, and leaves
another context; nothing else of the session takes part. What is left
to do is to show the code, to run it and to enter what it defines into
the catalog. `statement_eq` says so in one equation, and everything
that later proofs need of a statement is read off there: what it leaves
alone however it ends, that a failure leaves the catalog alone as well,
and that nothing depends on what has been shown, counted or put out
before.
-/
import RelQuery.Proofs.Session.Balance

namespace RelQuery

/-- Whether an event shows an error. -/
def Event.isError (e : Event) : Bool :=
  e.diagnostic?.any (·.severity == .error)

namespace Session

/-- The event, if the trace level asks for it. -/
def traced (s : Session) (level : TraceLevel) (e : Event) : List Event :=
  if s.options.trace.includes level then [e] else []

/-- The session in another context, with more events shown. -/
def showing (s : Session) (context : Context) (events : List Event) : Session :=
  { s with context, events := s.events ++ events }

/-- The events before a statement is run: its text, the type of its
result and its code. -/
def preview (s : Session) (text : List Char) (statement : Statement) (code : List UInt8) :
    List Event :=
  s.traced .echo (.echo text) ++ s.traced .types (.resultType statement.dataType) ++
    match Instruction.listCode code with
    | .ok listing => s.traced .listing (.listing listing)
    | .error _ => []

/-- What running code gives, if it is run. -/
def evaluate (s : Session) (code : List UInt8) : Except RunError (Option Value) :=
  match s.options.execute, s.evaluator with
  | true, some evaluator => (evaluator s.runs code).map some
  | _, _ => .ok none

/-- The session after code was run, if it was. -/
def ran (s : Session) (code : List UInt8) : Session :=
  match s.options.execute, s.evaluator with
  | true, some evaluator =>
    { s with
      runs := s.runs + 1
      events := s.events ++ (match evaluator s.runs code with
        | .ok value => [.value value]
        | .error _ => []) }
  | _, _ => s

end Session

namespace SessionStep

open Session

variable {α β : Type} {s s' : Session} {text source : List Char} {offset : Nat}

-- ====================================================== preparation

/-- A statement read, built, checked and turned into code, and the
context that this leaves. -/
def prepare (catalog : Catalog) (context : Context) (text : List Char) (offset : Nat)
    (source : List Char) : Except Failure (Statement × List UInt8) × Context :=
  let locate (mark : Nat) : Location := .ofOffset source (offset + mark)
  match Sentence.read text with
  | .error e => (.error (.single .parse e.code e.message (some (locate e.offset))), context)
  | .ok sentence =>
    match Build.statement catalog sentence { context } with
    | .error f w => (.error (f.failure locate), w.context)
    | .ok statement w =>
      if w.context.depth ≠ 0 || !w.context.inSync then (.error .scopeLeftOpen, w.context)
      else
        match emit statement (locate 0) with
        | .error f => (.error f, w.context)
        | .ok code => (.ok (statement, code), w.context)

/-- What is left to do with a prepared statement. -/
def complete (text : List Char) (offset : Nat) (start : Location) (statement : Statement)
    (code : List UInt8) : SessionStep Compiled := do
  let value ← if (← get).options.execute then run code else pure none
  register statement start
  return { text, offset, type := statement.dataType, code, value }

/-- After a step that succeeds the next one runs. -/
theorem bind_of_ok {x : SessionStep α} {f : α → SessionStep β} {a : α} (h : x s = .ok a s') :
    (x >>= f) s = f a s' := by
  show EStateM.bind x f s = _
  unfold EStateM.bind
  rw [h]

/-- After a step that fails nothing runs. -/
theorem bind_of_error {x : SessionStep α} {f : α → SessionStep β} {e : Failure}
    (h : x s = .error e s') : (x >>= f) s = .error e s' := by
  show EStateM.bind x f s = _
  unfold EStateM.bind
  rw [h]

/-- A trace shows what its level asks for, and always succeeds. -/
theorem trace_eq (level : TraceLevel) (e : Event) (s : Session) :
    trace level e s = .ok () (s.showing s.context (s.traced level e)) := by
  show (if s.options.trace.includes level then report e else pure ()) s = _
  unfold traced
  cases s.options.trace.includes level with
  | true => rfl
  | false =>
      show EStateM.Result.ok () s = _
      simp [showing]

/-- A statement is prepared and then, if that went well, completed. -/
theorem statement_eq (text : List Char) (offset : Nat) (source : List Char) (s : Session) :
    statement text offset source s =
      match prepare s.catalog s.context text offset source with
      | (.error f, context) => .error f (s.showing context (s.traced .echo (.echo text)))
      | (.ok (st, code), context) =>
        complete text offset (.ofOffset source offset) st code
          (s.showing context (s.preview text st code)) := by
  rw [statement]
  dsimp only
  rw [bind_of_ok (trace_eq _ _ s)]
  unfold prepare
  cases Sentence.read text with
  | error e => rfl
  | ok sentence =>
      dsimp only
      cases hbuild : Build.statement s.catalog sentence { context := s.context } with
      | error f w =>
          have hfails : build sentence (fun mark => .ofOffset source (offset + mark))
              (s.showing s.context (s.traced .echo (.echo text)))
                = .error (f.failure fun mark => .ofOffset source (offset + mark))
                    (s.showing w.context (s.traced .echo (.echo text))) := by
            simp only [build, showing, hbuild]
          show (build sentence _ >>= _) _ = _
          exact bind_of_error hfails
      | ok st w =>
          have hbuilds : build sentence (fun mark => .ofOffset source (offset + mark))
              (s.showing s.context (s.traced .echo (.echo text)))
                = .ok st (s.showing w.context (s.traced .echo (.echo text))) := by
            simp only [build, showing, hbuild]
          show (build sentence _ >>= _) _ = _
          rw [bind_of_ok hbuilds, bind_of_ok (rfl : (get : SessionStep Session) _ = .ok _ _)]
          -- the session looks at its own context, preparing at the one it built
          generalize hlook : (decide (_ ≠ 0) || !_) = isOpen
          have hopen : (decide (w.context.depth ≠ 0) || !w.context.inSync) = isOpen := hlook
          dsimp only
          rw [hopen]
          cases isOpen with
          | true => rfl
          | false =>
              rw [if_neg Bool.false_ne_true, if_neg Bool.false_ne_true]
              cases emit st (.ofOffset source (offset + 0)) with
              | error f => rfl
              | ok code =>
                  dsimp only
                  rw [bind_of_ok (rfl : (pure code : SessionStep _) _ = .ok _ _),
                    bind_of_ok (trace_eq _ _ _)]
                  cases hlist : Instruction.listCode code with
                  | error e =>
                      simp only [preview, hlist, showing, traced, List.append_nil,
                        List.append_assoc]
                      rfl
                  | ok listing =>
                      dsimp only
                      rw [bind_of_ok (trace_eq _ _ _)]
                      simp only [preview, hlist, showing, traced, List.append_assoc]
                      rfl

-- ======================================================= completion

/-- Running code is evaluating it. -/
theorem run_eq (code : List UInt8) (s : Session) (h : s.options.execute = true) :
    run code s =
      match s.evaluate code with
      | .ok value => .ok value (s.ran code)
      | .error e => .error e.failure (s.ran code) := by
  unfold run evaluate ran
  rw [h, bind_of_ok (rfl : (get : SessionStep Session) s = .ok s s)]
  cases s.evaluator with
  | none => rfl
  | some evaluator =>
      dsimp only
      rw [bind_of_ok (rfl : (set _ : SessionStep PUnit) s = .ok _ _)]
      cases evaluator s.runs code with
      | ok value => rfl
      | error e =>
          simp only [List.append_nil]
          rfl

/-- Registering a statement changes the catalog or is refused where the
statement starts. -/
theorem register_eq (statement : Statement) (start : Location) (s : Session) :
    register statement start s =
      match s.catalog.register statement with
      | .ok catalog => .ok () { s with catalog }
      | .error e => .error ((refusal e).orAt start) s := by
  show (match s.catalog.register statement with
    | .ok catalog => _
    | .error e => _ : SessionStep Unit) s = _
  cases s.catalog.register statement with
  | ok catalog => rfl
  | error e => rfl

/-- Running keeps the catalog. -/
theorem catalog_ran (s : Session) (code : List UInt8) : (s.ran code).catalog = s.catalog := by
  unfold ran
  split
  · rfl
  · rfl

/-- Completing runs the code first and asks the catalog afterwards. -/
theorem complete_eq (text : List Char) (offset : Nat) (start : Location) (st : Statement)
    (code : List UInt8) (s : Session) :
    complete text offset start st code s =
      match s.evaluate code with
      | .error e => .error e.failure (s.ran code)
      | .ok value =>
        match s.catalog.register st with
        | .error e => .error ((refusal e).orAt start) (s.ran code)
        | .ok catalog =>
          .ok { text, offset, type := st.dataType, code, value } { s.ran code with catalog } := by
  -- what comes after the run is the same whether the code was run or not
  let finish (value : Option Value) : SessionStep Compiled :=
    register st start >>= fun _ => pure { text, offset, type := st.dataType, code, value }
  have hfinish (value : Option Value) : finish value (s.ran code) =
      match s.catalog.register st with
      | .error e => .error ((refusal e).orAt start) (s.ran code)
      | .ok catalog =>
        .ok { text, offset, type := st.dataType, code, value } { s.ran code with catalog } := by
    have hregister := register_eq st start (s.ran code)
    rw [catalog_ran] at hregister
    cases hresult : s.catalog.register st with
    | ok catalog =>
        rw [hresult] at hregister
        exact bind_of_ok hregister
    | error e =>
        rw [hresult] at hregister
        exact bind_of_error hregister
  -- without execution there is nothing to run and no value
  show (if s.options.execute then run code >>= finish else pure none >>= finish) s = _
  cases hexecute : s.options.execute with
  | true =>
      have hrun := run_eq code s hexecute
      rw [if_pos rfl]
      cases hvalue : s.evaluate code with
      | ok value =>
          rw [hvalue] at hrun
          rw [bind_of_ok hrun]
          exact hfinish value
      | error e =>
          rw [hvalue] at hrun
          exact bind_of_error hrun
  | false =>
      have hvalue : s.evaluate code = .ok none := by
        unfold evaluate
        rw [hexecute]
      have hran : s.ran code = s := by
        unfold ran
        rw [hexecute]
      rw [hvalue, if_neg Bool.false_ne_true, bind_of_ok (rfl : (pure none : SessionStep _) s = _)]
      rw [hran] at hfinish ⊢
      exact hfinish none

end SessionStep

-- ================================================ what is left alone

namespace Session

/-- What a step leaves alone, however it ends: it shows no error, counts
none and does not change who evaluates or whether errors stop a text.
`made` is what it puts out. -/
structure Advances (s s' : Session) (made : Option Compiled) : Prop where
  stopOnError : s'.options.stopOnError = s.options.stopOnError
  evaluator : s'.evaluator = s.evaluator
  runs : s.evaluator = none → s'.runs = s.runs
  errors : s'.errors = s.errors
  aborted : s'.aborted = s.aborted
  output : s'.output = s.output ++ made.toList
  events : ∃ more, s'.events = s.events ++ more ∧ ∀ e ∈ more, e.isError = false

variable {s s' s'' : Session} {made : Option Compiled}

theorem Advances.refl (s : Session) : s.Advances s none :=
  ⟨rfl, rfl, fun _ => rfl, rfl, rfl, (List.append_nil _).symm,
    [], (List.append_nil _).symm, fun _ h => absurd h List.not_mem_nil⟩

/-- Two advances are one, if the first one makes nothing. -/
theorem Advances.trans (h : s.Advances s' none) (h' : s'.Advances s'' made) :
    s.Advances s'' made where
  stopOnError := h'.stopOnError.trans h.stopOnError
  evaluator := h'.evaluator.trans h.evaluator
  runs := fun hnone => (h'.runs (h.evaluator.trans hnone)).trans (h.runs hnone)
  errors := h'.errors.trans h.errors
  aborted := h'.aborted.trans h.aborted
  output := by
    have hsame : s'.output = s.output := h.output.trans (List.append_nil _)
    rw [h'.output, hsame]
  events := by
    obtain ⟨xs, hxs, hquiet⟩ := h.events
    obtain ⟨ys, hys, hquiet'⟩ := h'.events
    exact ⟨xs ++ ys, by rw [hys, hxs, List.append_assoc],
      List.forall_mem_append.mpr ⟨hquiet, hquiet'⟩⟩

theorem Advances.showing (s : Session) (context : Context) {events : List Event}
    (h : ∀ e ∈ events, e.isError = false) : s.Advances (s.showing context events) none :=
  ⟨rfl, rfl, fun _ => rfl, rfl, rfl, (List.append_nil _).symm, events, rfl, h⟩

/-- A trace of what is no error shows no error. -/
theorem traced_quiet (s : Session) (level : TraceLevel) {e : Event} (h : e.isError = false) :
    ∀ e' ∈ s.traced level e, e'.isError = false := by
  unfold traced
  split
  · exact List.forall_mem_singleton.mpr h
  · exact fun _ h => absurd h List.not_mem_nil

/-- A preview shows no error. -/
theorem preview_quiet (s : Session) (text : List Char) (st : Statement) (code : List UInt8) :
    ∀ e ∈ s.preview text st code, e.isError = false := by
  refine List.forall_mem_append.mpr ⟨List.forall_mem_append.mpr ⟨?_, ?_⟩, ?_⟩
  · exact s.traced_quiet _ rfl
  · exact s.traced_quiet _ rfl
  · split
    · exact s.traced_quiet _ rfl
    · exact fun _ h => absurd h List.not_mem_nil

/-- Running is an advance. -/
theorem Advances.ran (s : Session) (code : List UInt8) : s.Advances (s.ran code) none := by
  unfold Session.ran
  split
  · rename_i evaluator hexecute hevaluator
    refine ⟨rfl, rfl, fun hnone => ?_, rfl, rfl, (List.append_nil _).symm, _, rfl, ?_⟩
    · rw [hnone] at hevaluator
      cases hevaluator
    · split
      · exact List.forall_mem_singleton.mpr rfl
      · exact fun _ h => absurd h List.not_mem_nil
  · exact .refl s

/-- Running keeps the options. -/
theorem options_ran (s : Session) (code : List UInt8) : (s.ran code).options = s.options := by
  unfold Session.ran
  split
  · rfl
  · rfl

end Session

namespace SessionStep

open Session

variable {s s' : Session} {text source : List Char} {offset : Nat}

/-- A compiled statement was prepared, run if the session runs code, and
entered into the catalog. -/
theorem statement_eq_ok {c : Compiled} (h : statement text offset source s = .ok c s') :
    s.Advances s' none ∧ s'.options = s.options ∧
      ∃ st context, prepare s.catalog s.context text offset source = (.ok (st, c.code), context) ∧
        s.evaluate c.code = .ok c.value ∧ s.catalog.register st = .ok s'.catalog ∧
        c = { text, offset, type := st.dataType, code := c.code, value := c.value } := by
  rw [statement_eq] at h
  split at h
  · cases h
  · rename_i st code context hprepare
    have hshown := Advances.showing s context (s.preview_quiet text st code)
    rw [complete_eq] at h
    split at h
    · cases h
    · rename_i value hvalue
      split at h
      · cases h
      · rename_i catalog hregister
        cases h
        refine ⟨?_, options_ran _ code, st, context, hprepare, hvalue, hregister, rfl⟩
        obtain ⟨hstop, hev, hruns, herrors, haborted, hout, hevents⟩ :=
          hshown.trans (.ran _ code)
        exact ⟨hstop, hev, hruns, herrors, haborted, hout, hevents⟩

/-- A statement that fails leaves the catalog and the options alone. -/
theorem statement_eq_error {f : Failure} (h : statement text offset source s = .error f s') :
    s.Advances s' none ∧ s'.options = s.options ∧ s'.catalog = s.catalog := by
  rw [statement_eq] at h
  split at h
  · rename_i context _
    cases h
    exact ⟨.showing s context (s.traced_quiet _ rfl), rfl, rfl⟩
  · rename_i st code context _
    have hshown := Advances.showing s context (s.preview_quiet text st code)
    have hran := hshown.trans (.ran (s.showing context (s.preview text st code)) code)
    rw [complete_eq] at h
    split at h
    · cases h
      exact ⟨hran, options_ran _ code, catalog_ran _ code⟩
    · split at h
      · cases h
        exact ⟨hran, options_ran _ code, catalog_ran _ code⟩
      · cases h

end SessionStep

-- ==================================================== what decides

namespace Session

/-- The part of a session that decides what statements do. What has been
shown, counted and put out is left away. -/
def core (s : Session) : Session :=
  { s with errors := 0, aborted := false, output := [], events := [] }

end Session

namespace SessionStep

open Session

variable {α : Type}

/-- A result with the core of its session. -/
def resultCore : EStateM.Result Failure Session α → EStateM.Result Failure Session α
  | .ok a s => .ok a s.core
  | .error f s => .error f s.core

/-- Running and keeping the core may change places. -/
theorem core_ran (s : Session) (code : List UInt8) :
    (s.ran code).core = (s.core.ran code).core := by
  show _ = (match s.options.execute, s.evaluator with
    | true, some evaluator => _
    | _, _ => _ : Session).core
  unfold Session.ran
  split
  · rfl
  · rfl

/-- What completion does to the core depends on the core alone. -/
theorem complete_core (text : List Char) (offset : Nat) (start : Location) (st : Statement)
    (code : List UInt8) (s : Session) :
    resultCore (complete text offset start st code s)
      = resultCore (complete text offset start st code s.core) := by
  rw [complete_eq, complete_eq]
  show _ = resultCore (match s.evaluate code with
    | .error e => _
    | .ok value => match s.catalog.register st with
      | .error e => _
      | .ok catalog => _)
  cases s.evaluate code with
  | error e => exact congrArg (EStateM.Result.error _) (core_ran s code)
  | ok value =>
      dsimp only
      cases s.catalog.register st with
      | error e => exact congrArg (EStateM.Result.error _) (core_ran s code)
      | ok catalog =>
          exact congrArg (fun t : Session => EStateM.Result.ok _ { t with catalog })
            (core_ran s code)

/-- Only the core of a session decides what a statement does. -/
theorem statement_core (text : List Char) (offset : Nat) (source : List Char) (s : Session) :
    resultCore (statement text offset source s)
      = resultCore (statement text offset source s.core) := by
  rw [statement_eq, statement_eq]
  show _ = resultCore (match prepare s.catalog s.context text offset source with
    | (.error f, context) => _
    | (.ok (st, code), context) => _)
  cases prepare s.catalog s.context text offset source with
  | mk result context =>
      cases result with
      | error f => rfl
      | ok prepared =>
          obtain ⟨st, code⟩ := prepared
          exact (complete_core _ _ _ st code (s.showing context _)).trans
            (complete_core _ _ _ st code (s.core.showing context _)).symm

end SessionStep

end RelQuery
