/-
A failed piece costs only itself.

A text is worked through piece by piece, and `outcomes` lists what
became of each: a compiled statement, an obeyed directive or a failure.
The account of a run (`pieces_account`) reads everything else off that
list. Statements that compiled are what was put out, failures are what
was counted and shown, and a failure that is no mistake of the program
is the last one.

A piece that fails leaves the catalog, the options and what was put out
as they were, and the context is cleared after it. If the context was
fresh before, the core of the session is the one before the piece, so
every later piece finds what it would have found without it
(`outcomes_core`). Taking the failed piece out of the text takes one
entry out of the list of outcomes and changes nothing else.
-/
import RelQuery.Proofs.Session.Preparation

namespace RelQuery

-- ======================================================= directives

namespace SessionStep

open Session

/-- What a directive asks for. -/
structure Request where
  options : Options
  catalog : Catalog
  events : List Event

/-- The step asks for something that depends on the core of the session
only, or is refused and changes nothing. -/
structure Obeys (step : SessionStep Unit) (ask : Session → Except Failure Request) : Prop where
  eq : ∀ s, step s =
    match ask s with
    | .ok r => .ok ()
        { s with options := r.options, catalog := r.catalog, events := s.events ++ r.events }
    | .error f => .error f s
  core : ∀ s, ask s.core = ask s
  stopOnError : ∀ s r, ask s = .ok r → r.options.stopOnError = s.options.stopOnError
  quiet : ∀ s r, ask s = .ok r → ∀ e ∈ r.events, e.isError = false

namespace Obeys

variable {step : SessionStep Unit} {ask : Session → Except Failure Request} {s s' : Session}

theorem throw (f : Failure) : Obeys (throw f) fun _ => .error f :=
  ⟨fun _ => rfl, fun _ => rfl, fun _ _ h => (nomatch h), fun _ _ h => (nomatch h)⟩

/-- A setting that keeps whether to stop on errors obeys. -/
theorem setOptions {g : Options → Options} (h : ∀ o, (g o).stopOnError = o.stopOnError) :
    Obeys (setOptions g) fun s => .ok ⟨g s.options, s.catalog, []⟩ where
  eq := by
    intro s
    dsimp only
    rw [List.append_nil]
    rfl
  core := fun _ => rfl
  stopOnError := by
    rintro s r ⟨⟩
    exact h s.options
  quiet := by
    rintro s r ⟨⟩ e he
    exact absurd he List.not_mem_nil

/-- Turning execution on or off obeys. -/
theorem setExecution (on : Bool) :
    Obeys (setExecution on) fun s => .ok ⟨{ s.options with execute := on }, s.catalog,
      if on && s.evaluator.isNone then
        [.diagnostic (.warning Code.badConfiguration "execution enabled without an evaluator") []]
      else []⟩ where
  eq := by
    intro s
    show (if on && s.evaluator.isNone then report _ else pure ()) _ = _
    dsimp only
    cases on && s.evaluator.isNone with
    | true => rfl
    | false =>
        rw [if_neg Bool.false_ne_true, if_neg Bool.false_ne_true, List.append_nil]
        rfl
  core := fun _ => rfl
  stopOnError := by
    rintro s r ⟨⟩
    rfl
  quiet := by
    rintro s r ⟨⟩
    dsimp only
    split
    · exact List.forall_mem_singleton.mpr rfl
    · exact fun _ h => absurd h List.not_mem_nil

/-- A step that obeys advances and keeps the context. -/
theorem advances (h : Obeys step ask) (hs : step s = .ok () s') :
    s.Advances s' none ∧ s'.context = s.context := by
  rw [h.eq] at hs
  split at hs
  · rename_i r hr
    cases hs
    exact ⟨⟨h.stopOnError s r hr, rfl, fun _ => rfl, rfl, rfl, (List.append_nil _).symm,
      r.events, rfl, h.quiet s r hr⟩, rfl⟩
  · cases hs

/-- A step that obeys and fails changes nothing. -/
theorem unchanged (h : Obeys step ask) {f : Failure} (hs : step s = .error f s') : s' = s := by
  rw [h.eq] at hs
  split at hs
  · cases hs
  · cases hs
    rfl

end Obeys

/-- What loading the catalog asks for. -/
def reloading (s : Session) : Except Failure Request :=
  match s.catalog.load with
  | .ok (count, catalog) => .ok ⟨s.options, catalog, [.info s!"catalog loaded: {count} entries"]⟩
  | .error e => .error (refusal e)

/-- Every directive obeys. -/
theorem directive_obeys (text : List Char) : ∃ ask, Obeys (directive text) ask := by
  unfold directive
  generalize (Text.words text).map String.ofList = words
  -- the cases are those of the words of the directive
  split
  · split
    · exact ⟨_, .setOptions fun _ => rfl⟩
    · exact ⟨_, .throw _⟩
  -- loading reads the options and the saved entries, and replaces the entries
  · refine ⟨reloading, fun s => ?_, fun _ => rfl, fun s r => ?_, fun s r => ?_⟩
    · rw [bind_of_ok (rfl : (get : SessionStep Session) s = .ok _ _), reloading]
      cases s.catalog.load with
      | ok loaded => rfl
      | error e => rfl
    · rw [reloading]
      cases s.catalog.load with
      | ok loaded =>
          rintro ⟨⟩
          rfl
      | error e => exact fun h => nomatch h
    · rw [reloading]
      cases s.catalog.load with
      | ok loaded =>
          rintro ⟨⟩
          exact List.forall_mem_singleton.mpr rfl
      | error e => exact fun h => nomatch h
  -- saving changes the catalog and reports how many were saved
  · refine ⟨fun s => .ok ⟨s.options, s.catalog.save.2,
      [.info s!"catalog saved: {s.catalog.save.1} entries"]⟩, fun s => rfl, fun _ => rfl, ?_, ?_⟩
    · rintro s r ⟨⟩
      rfl
    · rintro s r ⟨⟩
      exact List.forall_mem_singleton.mpr rfl
  · exact ⟨_, .setExecution true⟩
  · exact ⟨_, .setExecution false⟩
  · exact ⟨_, .throw _⟩

-- ========================================================= one piece

/-- What becomes of a piece: a compiled statement, nothing for a
directive that is obeyed, or a failure. -/
abbrev Outcome := Except Failure (Option Compiled)

/-- What becomes of a piece in a session. -/
def outcome (source : List Char) (p : Piece) (s : Session) : Outcome :=
  match p.body with
  | .statement text => (s.compileStatement text p.offset source).1.map some
  | .directive text =>
    match directive text s with
    | .ok .. => .ok none
    | .error f _ => .error (f.orAt (.ofOffset source p.offset))

/-- A statement that compiles is the one of its piece; a directive
compiles nothing. -/
def Fits (p : Piece) (made : Option Compiled) : Prop :=
  match p.body with
  | .statement text => ∃ c, made = some c ∧ c.text = text ∧ c.offset = p.offset
  | .directive _ => made = none

variable {source : List Char} {p : Piece} {s s' : Session}

/-- All that a piece can do to a session. -/
theorem piece_cases (source : List Char) (p : Piece) (s : Session) :
    (∃ made s', outcome source p s = .ok made ∧ piece source p s = .ok () s' ∧
      s.Advances s' made ∧ Fits p made ∧ (s.context = .fresh → s'.context = .fresh)) ∨
    (∃ f s', outcome source p s = .error f ∧ piece source p s = .error f s' ∧
      s.Advances s' none ∧ s'.catalog = s.catalog ∧ s'.options = s.options) := by
  unfold outcome piece Fits
  -- a statement leaves what it has made, or fails and leaves catalog and options
  -- alone
  cases p.body with
  | statement text =>
      dsimp only
      unfold compileStatement
      cases hstatement : statement text p.offset source s with
      | ok c s₁ =>
          obtain ⟨hadvances, -, st, context, -, -, -, hc⟩ := statement_eq_ok hstatement
          refine .inl ⟨some c, { s₁ with output := s₁.output ++ [c] }, rfl,
            bind_of_ok hstatement, ?_, ⟨c, rfl, by rw [hc], by rw [hc]⟩, fun hs => ?_⟩
          · refine hadvances.trans ⟨rfl, rfl, fun _ => rfl, rfl, rfl, rfl,
              [], (List.append_nil _).symm, fun _ h => absurd h List.not_mem_nil⟩
          · have hsettled := statement_settled text p.offset source s hs
            rw [hstatement] at hsettled
            exact hsettled
      | error f s₁ =>
          obtain ⟨hadvances, hoptions, hcatalog⟩ := statement_eq_error hstatement
          exact .inr ⟨f, s₁, rfl, bind_of_error hstatement, hadvances, hcatalog, hoptions⟩
  -- a directive makes nothing
  | directive text =>
      obtain ⟨ask, hobeys⟩ := directive_obeys text
      dsimp only
      cases hdirective : directive text s with
      | ok u s₁ =>
          obtain ⟨hadvances, hcontext⟩ := hobeys.advances hdirective
          exact .inl ⟨none, s₁, rfl, rfl, hadvances, rfl, hcontext.trans⟩
      | error f s₁ =>
          obtain rfl := hobeys.unchanged hdirective
          exact .inr ⟨_, s₁, rfl, rfl, .refl s₁, rfl, rfl⟩

/-- Only the core of a session decides what a piece does. -/
theorem piece_core (source : List Char) (p : Piece) (s : Session) :
    outcome source p s = outcome source p s.core ∧
      resultCore (piece source p s) = resultCore (piece source p s.core) := by
  unfold outcome piece
  cases p.body with
  | statement text =>
      dsimp only
      -- the statement runs alike from the session and from its core, so it ends
      -- alike
      unfold compileStatement
      have hcore := statement_core text p.offset source s
      cases hs : statement text p.offset source s with
      | ok c s₁ =>
          cases ht : statement text p.offset source s.core with
          | ok d t₁ =>
              rw [hs, ht] at hcore
              injection hcore with hc hcore
              subst hc
              rw [bind_of_ok hs, bind_of_ok ht]
              exact ⟨rfl, congrArg (EStateM.Result.ok ()) hcore⟩
          | error f t₁ =>
              rw [hs, ht] at hcore
              cases hcore
      | error f s₁ =>
          cases ht : statement text p.offset source s.core with
          | ok d t₁ =>
              rw [hs, ht] at hcore
              cases hcore
          | error g t₁ =>
              rw [hs, ht] at hcore
              injection hcore with hf hcore
              subst hf
              rw [bind_of_error hs, bind_of_error ht]
              exact ⟨rfl, congrArg (EStateM.Result.error f) hcore⟩
  | directive text =>
      -- a directive asks for what it needs, and all of that is in the core
      obtain ⟨ask, hobeys⟩ := directive_obeys text
      dsimp only
      rw [hobeys.eq s, hobeys.eq s.core, hobeys.core]
      cases ask s with
      | ok r => exact ⟨rfl, rfl⟩
      | error f => exact ⟨rfl, rfl⟩

end SessionStep

-- =========================================================== runs

/-- The diagnostic of a failure is an error. -/
theorem Failure.severity_diagnostic : ∀ f : Failure, f.diagnostic.severity = .error
  | .single .. => rfl
  | .several [] => rfl
  | .several (first :: _) => severity_diagnostic first

/-- The report of a failure is an error. -/
theorem Failure.isError_diagnostic (f : Failure) (source : List Char) :
    Event.isError (.diagnostic f.diagnostic source) = true := by
  show (f.diagnostic.severity == .error) = true
  rw [f.severity_diagnostic]
  rfl

namespace Session

open SessionStep

/-- What becomes of pieces one after another, until one ends the
text. -/
def outcomes (source : List Char) : List Piece → Session → List Outcome
  | [], _ => []
  | p :: rest, s =>
    outcome source p s ::
      match piece source p s with
      | .ok _ s => outcomes source rest s
      | .error f s =>
        let s := s.recover f source
        if s.aborted || s.options.stopOnError then [] else outcomes source rest s

/-- The statements that compiled. -/
def compiledOf (os : List Outcome) : List Compiled :=
  os.filterMap fun
    | .ok made => made
    | .error _ => none

/-- The failures. -/
def failuresOf (os : List Outcome) : List Failure :=
  os.filterMap fun
    | .ok _ => none
    | .error f => some f

theorem failuresOf_append (xs ys : List Outcome) :
    failuresOf (xs ++ ys) = failuresOf xs ++ failuresOf ys :=
  List.filterMap_append

/-- A failure between two lists of outcomes is one between their failures. -/
theorem failuresOf_insert (xs ys : List Outcome) (f : Failure) :
    failuresOf (xs ++ .error f :: ys) = failuresOf xs ++ f :: failuresOf ys :=
  failuresOf_append xs (.error f :: ys)

variable {source : List Char} {s s' : Session} {f : Failure}

/-- Recovering shows one error and clears the context. -/
theorem recover_eq (s : Session) (f : Failure) (source : List Char) :
    (s.recover f source).core = { s.core with context := .fresh } ∧
      (s.recover f source).output = s.output ∧
      (s.recover f source).errors = s.errors + (if f.isRestartable then 1 else 0) ∧
      (s.recover f source).aborted = (s.aborted || !f.isRestartable) ∧
      ∃ more, (s.recover f source).events = s.events ++ more ∧
        (more.filter Event.isError).length = 1 := by
  have hshown := f.isError_diagnostic source
  unfold recover
  cases f.isRestartable with
  | true =>
      refine ⟨rfl, rfl, rfl, (Bool.or_false _).symm, _, rfl, ?_⟩
      rw [List.filter_cons_of_pos hshown]
      rfl
  | false =>
      refine ⟨rfl, rfl, rfl, (Bool.or_true _).symm, _, List.append_assoc .., ?_⟩
      show (List.filter Event.isError [_, Event.info "aborted"]).length = 1
      rw [List.filter_cons_of_pos hshown]
      rfl

/-- Everything that a run does, read off its outcomes. -/
structure Account (s s' : Session) (os : List Outcome) : Prop where
  output : s'.output = s.output ++ compiledOf os
  errors : s'.errors = s.errors + (failuresOf os).countP (·.isRestartable)
  aborted : (if s'.aborted then 1 else 0) = (if s.aborted then 1 else 0) +
    (failuresOf os).countP fun f => !f.isRestartable
  shown : ∃ more, s'.events = s.events ++ more ∧
    (more.filter Event.isError).length = (failuresOf os).length

namespace Account

theorem refl (s : Session) : Account s s [] :=
  ⟨(List.append_nil _).symm, rfl, rfl, [], (List.append_nil _).symm, rfl⟩

/-- Two accounts are one. -/
theorem trans {s'' : Session} {xs ys : List Outcome} (h : Account s s' xs)
    (h' : Account s' s'' ys) : Account s s'' (xs ++ ys) where
  output := by
    rw [h'.output, h.output, compiledOf, compiledOf, compiledOf, List.filterMap_append,
      List.append_assoc]
  errors := by rw [h'.errors, h.errors, failuresOf_append, List.countP_append, Nat.add_assoc]
  aborted := by rw [h'.aborted, h.aborted, failuresOf_append, List.countP_append, Nat.add_assoc]
  shown := by
    obtain ⟨xs', hxs, hlength⟩ := h.shown
    obtain ⟨ys', hys, hlength'⟩ := h'.shown
    refine ⟨xs' ++ ys', by rw [hys, hxs, List.append_assoc], ?_⟩
    rw [List.filter_append, List.length_append, hlength, hlength', failuresOf_append,
      List.length_append]

/-- An advance accounts for what it made. -/
theorem made {made : Option Compiled} (h : s.Advances s' made) : Account s s' [.ok made] where
  output := by
    rw [h.output]
    cases made with
    | none => rfl
    | some c => rfl
  errors := h.errors
  aborted := by
    rw [h.aborted]
    rfl
  shown := by
    obtain ⟨more, hmore, hquiet⟩ := h.events
    refine ⟨more, hmore, ?_⟩
    rw [List.length_eq_zero_iff.mpr (List.filter_eq_nil_iff.mpr fun e he => ?_)]
    · rfl
    · rw [hquiet e he]
      exact Bool.false_ne_true

/-- Recovering accounts for one failure. -/
theorem failed (f : Failure) (source : List Char) (h : s.Advances s' none)
    (hs : s.aborted = false) :
    Account s (s'.recover f source) [.error f] := by
  obtain ⟨-, houtput, herrors, haborted, more, hmore, hone⟩ := s'.recover_eq f source
  obtain ⟨before, hbefore, hquiet⟩ := h.events
  constructor
  · rw [houtput, h.output]
    rfl
  · rw [herrors, h.errors]
    cases hf : f.isRestartable with
    | true => simp [failuresOf, hf]
    | false => simp [failuresOf, hf]
  · rw [haborted, h.aborted, hs]
    cases hf : f.isRestartable with
    | true => simp [failuresOf, hf]
    | false => simp [failuresOf, hf]
  · refine ⟨before ++ more, by rw [hmore, hbefore, List.append_assoc], ?_⟩
    have hnone : before.filter Event.isError = [] := by
      rw [List.filter_eq_nil_iff]
      intro e he
      rw [hquiet e he]
      exact Bool.false_ne_true
    rw [List.filter_append, hnone, List.nil_append, hone]
    rfl

end Account

/-- The account of a run. -/
theorem pieces_account (source : List Char) (ps : List Piece) (s : Session)
    (hs : s.aborted = false) : Account s (pieces source ps s) (outcomes source ps s) := by
  induction ps generalizing s with
  | nil => exact .refl s
  | cons p rest ih =>
      unfold pieces outcomes
      obtain ⟨made, s₁, houtcome, hpiece, hadvances, -, -⟩ |
          ⟨f, s₁, houtcome, hpiece, hadvances, -, -⟩ := piece_cases source p s
      · rw [houtcome, hpiece]
        exact (Account.made hadvances).trans (ih s₁ (hadvances.aborted.trans hs))
      · rw [houtcome, hpiece]
        dsimp only
        have hfailed := Account.failed f source hadvances hs
        cases hstop : (s₁.recover f source).aborted ||
            (s₁.recover f source).options.stopOnError with
        | true => exact hfailed
        | false =>
            rw [if_neg Bool.false_ne_true, if_neg Bool.false_ne_true]
            exact hfailed.trans (ih _ (Bool.or_eq_false_iff.mp hstop).1)

/-- Outcomes belong to the pieces in their order. -/
theorem outcomes_fit (source : List Char) (ps : List Piece) (s : Session) :
    List.Forall₂ (fun p o => ∀ made, o = .ok made → Fits p made)
      (ps.take (outcomes source ps s).length) (outcomes source ps s) := by
  induction ps generalizing s with
  | nil => exact .nil
  | cons p rest ih =>
      unfold outcomes
      obtain ⟨made, s₁, houtcome, hpiece, -, hfits, -⟩ | ⟨f, s₁, houtcome, hpiece, -, -, -⟩ :=
        piece_cases source p s
      · rw [houtcome, hpiece]
        refine .cons ?_ (ih s₁)
        rintro _ ⟨⟩
        exact hfits
      · rw [houtcome, hpiece]
        dsimp only
        cases (s₁.recover f source).aborted || (s₁.recover f source).options.stopOnError with
        | true => exact .cons (fun _ h => nomatch h) .nil
        | false => exact .cons (fun _ h => nomatch h) (ih _)

-- ========================================================= two runs

/-- Nothing is open, no code is run, and a mistake of the program does
not end the text. -/
structure Resumes (s : Session) : Prop where
  context : s.context = .fresh
  stopOnError : s.options.stopOnError = false
  evaluator : s.evaluator = none
  aborted : s.aborted = false

/-- After a piece that failed, the core of the session is as it was. -/
theorem Resumes.core_recover (h : s.Resumes) (f : Failure) (source : List Char)
    (hs : s.Advances s' none) (hcatalog : s'.catalog = s.catalog)
    (hoptions : s'.options = s.options) :
    (s'.recover f source).core = s.core := by
  rw [(s'.recover_eq f source).1]
  unfold core
  rw [hoptions, hcatalog, hs.evaluator, hs.runs h.evaluator, ← h.context]

theorem resumes_of_core {t : Session} (h : s.Resumes) (hcore : t.core = s.core)
    (haborted : t.aborted = false) : t.Resumes where
  context := (congrArg Session.context hcore).trans h.context
  stopOnError := (congrArg (·.options.stopOnError) hcore).trans h.stopOnError
  evaluator := (congrArg Session.evaluator hcore).trans h.evaluator
  aborted := haborted

/-- A piece ends alike in two sessions of one core. -/
theorem piece_pair (source : List Char) (p : Piece) {s t : Session} (hcore : s.core = t.core) :
    outcome source p s = outcome source p t ∧
      ((∃ s' t', piece source p s = .ok () s' ∧ piece source p t = .ok () t' ∧
          s'.core = t'.core ∧ s'.aborted = s.aborted ∧ t'.aborted = t.aborted) ∨
        ∃ f s' t', piece source p s = .error f s' ∧ piece source p t = .error f t' ∧
          s'.core = t'.core ∧ s'.aborted = s.aborted ∧ t'.aborted = t.aborted) := by
  obtain ⟨houtcome, hresult⟩ := piece_core source p s
  obtain ⟨houtcome', hresult'⟩ := piece_core source p t
  rw [hcore, ← houtcome'] at houtcome
  rw [hcore, ← hresult'] at hresult
  refine ⟨houtcome, ?_⟩
  obtain ⟨_, s', -, hs, hadvances, -, -⟩ | ⟨f, s', -, hs, hadvances, -, -⟩ := piece_cases source p s
  · obtain ⟨_, t', -, ht, hadvances', -, -⟩ | ⟨g, t', -, ht, -, -, -⟩ := piece_cases source p t
    · rw [hs, ht] at hresult
      injection hresult with _ hcore'
      exact .inl ⟨s', t', hs, ht, hcore', hadvances.aborted, hadvances'.aborted⟩
    · rw [hs, ht] at hresult
      cases hresult
  · obtain ⟨_, t', -, ht, -, -, -⟩ | ⟨g, t', -, ht, hadvances', -, -⟩ := piece_cases source p t
    · rw [hs, ht] at hresult
      cases hresult
    · rw [hs, ht] at hresult
      injection hresult with hf hcore'
      subst hf
      exact .inr ⟨f, s', t', hs, ht, hcore', hadvances.aborted, hadvances'.aborted⟩

/-- Only the core of a session decides what becomes of a text. -/
theorem outcomes_core (source : List Char) (ps : List Piece) {s t : Session}
    (hcore : s.core = t.core) (hs : s.aborted = false) (ht : t.aborted = false) :
    outcomes source ps s = outcomes source ps t ∧
      (pieces source ps s).core = (pieces source ps t).core := by
  -- the induction is on the pieces; cores and giving up are kept equal
  induction ps generalizing s t with
  | nil => exact ⟨rfl, hcore⟩
  | cons p rest ih =>
      unfold outcomes pieces
      obtain ⟨houtcome, ⟨s', t', hps, hpt, hcore', hs', ht'⟩ |
        ⟨f, s', t', hps, hpt, hcore', hs', ht'⟩⟩ := piece_pair source p hcore
      · obtain ⟨houtcomes, hpieces⟩ := ih hcore' (hs'.trans hs) (ht'.trans ht)
        rw [houtcome, hps, hpt]
        exact ⟨congrArg _ houtcomes, hpieces⟩
      -- both runs recover alike, so both are given up or neither
      · obtain ⟨hcores, -, -, haborteds, -⟩ := s'.recover_eq f source
        obtain ⟨hcoret, -, -, habortedt, -⟩ := t'.recover_eq f source
        have hcores' : (s'.recover f source).core = (t'.recover f source).core := by
          rw [hcores, hcoret, hcore']
        have hoptions : (s'.recover f source).options = (t'.recover f source).options :=
          congrArg (·.options) hcores'
        have haborted : (s'.recover f source).aborted = (t'.recover f source).aborted := by
          rw [haborteds, habortedt, hs', ht', hs, ht]
        rw [houtcome, hps, hpt]
        dsimp only
        rw [haborted, hoptions]
        cases hstop : (t'.recover f source).aborted ||
            (t'.recover f source).options.stopOnError with
        | true => exact ⟨rfl, hcores'⟩
        | false =>
            have hgoes := (Bool.or_eq_false_iff.mp hstop).1
            obtain ⟨houtcomes, hpieces⟩ := ih hcores' (haborted.trans hgoes) hgoes
            exact ⟨congrArg _ houtcomes, hpieces⟩

/-- A run that is not given up goes through all pieces, and a longer one
goes on from there. -/
theorem pieces_append (source : List Char) (xs : List Piece) (h : s.Resumes) :
    (pieces source xs s).aborted = true ∧
        (∀ ys, pieces source (xs ++ ys) s = pieces source xs s) ∨
      (pieces source xs s).Resumes ∧ (outcomes source xs s).length = xs.length ∧ ∀ ys,
        pieces source (xs ++ ys) s = pieces source ys (pieces source xs s) ∧
        outcomes source (xs ++ ys) s
          = outcomes source xs s ++ outcomes source ys (pieces source xs s) := by
  -- the induction is on the first pieces; a run may be given up on the way
  induction xs generalizing s with
  | nil => exact .inr ⟨h, rfl, fun _ => ⟨rfl, rfl⟩⟩
  | cons p rest ih =>
      simp only [List.cons_append, pieces, outcomes]
      obtain ⟨made, s₁, -, hpiece, hadvances, -, hcontext⟩ |
        ⟨f, s₁, -, hpiece, hadvances, hcatalog, hoptions⟩ := piece_cases source p s
      -- a piece that succeeds leaves a session that resumes
      · have hresumes : s₁.Resumes :=
          ⟨hcontext h.context, hadvances.stopOnError.trans h.stopOnError,
            hadvances.evaluator.trans h.evaluator, hadvances.aborted.trans h.aborted⟩
        rw [hpiece]
        obtain hgiven | ⟨hends, hlength, hgoes⟩ := ih hresumes
        · exact .inl hgiven
        · refine .inr ⟨hends, congrArg (· + 1) hlength, fun ys => ?_⟩
          exact ⟨(hgoes ys).1, congrArg _ (hgoes ys).2⟩
      -- after a failure the run goes on, unless it is given up
      · have hcore := h.core_recover f source hadvances hcatalog hoptions
        have hstop : (s₁.recover f source).options.stopOnError = false :=
          (congrArg (·.options.stopOnError) hcore).trans h.stopOnError
        rw [hpiece]
        dsimp only
        rw [hstop, Bool.or_false]
        cases haborted : (s₁.recover f source).aborted with
        | true => exact .inl ⟨haborted, fun _ => rfl⟩
        | false =>
            obtain hgiven | ⟨hends, hlength, hgoes⟩ := ih (resumes_of_core h hcore haborted)
            · exact .inl hgiven
            · refine .inr ⟨hends, congrArg (· + 1) hlength, fun ys => ?_⟩
              exact ⟨(hgoes ys).1, congrArg _ (hgoes ys).2⟩

/-- A piece that fails leaves no trace for the pieces after it. -/
theorem pieces_of_failed {p : Piece} {rest : List Piece} (h : s.Resumes)
    (hfails : outcome source p s = .error f)
    (haborted : (pieces source (p :: rest) s).aborted = false) :
    (∃ s', piece source p s = .error f s' ∧ (s'.recover f source).core = s.core ∧
      (s'.recover f source).output = s.output) ∧
      outcomes source (p :: rest) s = .error f :: outcomes source rest s ∧
      (pieces source (p :: rest) s).core = (pieces source rest s).core := by
  obtain ⟨made, s₁, hmade, -, -, -, -⟩ | ⟨g, s₁, hg, hpiece, hadvances, hcatalog, hoptions⟩ :=
    piece_cases source p s
  · rw [hfails] at hmade
    cases hmade
  · rw [hfails] at hg
    injection hg with hg
    subst hg
    -- recovering brings back the core that was there before the piece
    have hcore := h.core_recover f source hadvances hcatalog hoptions
    have houtput : (s₁.recover f source).output = s.output :=
      (s₁.recover_eq f source).2.1.trans (hadvances.output.trans (List.append_nil _))
    have hstop : (s₁.recover f source).options.stopOnError = false :=
      (congrArg (·.options.stopOnError) hcore).trans h.stopOnError
    simp only [pieces, outcomes] at haborted ⊢
    rw [hpiece] at haborted ⊢
    rw [hfails]
    dsimp only at haborted ⊢
    rw [hstop, Bool.or_false] at haborted ⊢
    -- the run is not given up, so it goes on from that core
    cases hends : (s₁.recover f source).aborted with
    | true =>
        rw [hends, if_pos rfl, hends] at haborted
        cases haborted
    | false =>
        obtain ⟨houtcomes, hpieces⟩ := outcomes_core source rest hcore hends h.aborted
        exact ⟨⟨s₁, rfl, hcore, houtput⟩, congrArg _ houtcomes, hpieces⟩

/-- The session as a text begins. -/
def started (s : Session) : Session :=
  { s with errors := 0, aborted := false }

/-- An error that was shown was counted, or was the one that ended the
text. -/
theorem process_account (s : Session) (text : List Char) :
    (∃ shown, (s.process text).2.events = s.events ++ shown ∧
      (shown.filter Event.isError).length
        = (s.process text).2.errors + (if (s.process text).2.aborted then 1 else 0)) ∧
    (s.process text).2.output
      = s.output ++ compiledOf (outcomes text (Piece.split text) s.started) := by
  obtain ⟨houtput, herrors, haborted, more, hmore, hshown⟩ :=
    pieces_account text (Piece.split text) s.started rfl
  refine ⟨⟨more, hmore, ?_⟩, houtput⟩
  rw [hshown, List.length_eq_countP_add_countP (fun f : Failure => f.isRestartable)]
  show _ = (pieces text (Piece.split text) s.started).errors
    + (if (pieces text (Piece.split text) s.started).aborted then 1 else 0)
  rw [herrors, haborted]
  simp [started]

/-- A failed piece costs only itself. It leaves no trace but the error
that was shown: without it every other piece has the outcome it has, the
catalog ends as it does, and there is one error less. And whatever the
text, every error that was counted was shown and the other way round,
what was put out are the statements that compiled, and the answer tells
whether an error was shown. -/
theorem failed_piece_costs_only_itself :
    (∀ (s : Session) (text : List Char) (before after : List Piece) (p : Piece) (f : Failure),
      s.context = .fresh → s.options.stopOnError = false → s.evaluator = none →
      (s.process text).2.aborted = false → Piece.split text = before ++ p :: after →
      (outcomes text (Piece.split text) s.started)[before.length]? = some (.error f) →
        (∃ s', piece text p (pieces text before s.started) = .error f s' ∧
          (s'.recover f text).catalog = (pieces text before s.started).catalog ∧
          (s'.recover f text).options = (pieces text before s.started).options ∧
          (s'.recover f text).output = (pieces text before s.started).output ∧
          (s'.recover f text).context = .fresh) ∧
        outcomes text (before ++ after) s.started
          = (outcomes text (Piece.split text) s.started).eraseIdx before.length ∧
        (pieces text (before ++ after) s.started).catalog = (s.process text).2.catalog ∧
        (pieces text (before ++ after) s.started).errors + 1 = (s.process text).2.errors) ∧
    (∀ (s : Session) (text : List Char),
      (∃ shown, (s.process text).2.events = s.events ++ shown ∧
        (shown.filter Event.isError).length
          = (s.process text).2.errors + (if (s.process text).2.aborted then 1 else 0) ∧
        ((s.process text).1 = true ↔ shown.filter Event.isError = [])) ∧
      (s.process text).2.output
        = s.output ++ compiledOf (outcomes text (Piece.split text) s.started) ∧
      List.Forall₂ (fun p o => ∀ made, o = .ok made → Fits p made)
        ((Piece.split text).take (outcomes text (Piece.split text) s.started).length)
        (outcomes text (Piece.split text) s.started)) := by
  refine ⟨fun s text before after p f hcontext hstop hevaluator haborted hsplit hfails => ?_,
    fun s text => ?_⟩
  · have hstart : s.started.Resumes := ⟨hcontext, hstop, hevaluator, rfl⟩
    have hprocess : (s.process text).2 = pieces text (before ++ p :: after) s.started := by
      rw [← hsplit]
      rfl
    rw [hprocess] at haborted
    rw [hsplit] at hfails
    rw [hprocess, hsplit]
    -- the pieces before the one that fails go through
    obtain ⟨hgiven, hstays⟩ | ⟨hresumes, hlength, hgoes⟩ := pieces_append text before hstart
    · rw [hstays, hgiven] at haborted
      cases haborted
    · rw [(hgoes _).1] at haborted
      have houtcome : outcome text p (pieces text before s.started) = .error f := by
        rw [(hgoes _).2, ← hlength, List.getElem?_append_right (Nat.le_refl _),
          Nat.sub_self] at hfails
        exact Option.some.inj hfails
      obtain ⟨⟨s', hpiece, hcore, houtput⟩, houtcomes, hpieces⟩ :=
        pieces_of_failed hresumes houtcome haborted
      have herase : outcomes text (before ++ after) s.started
          = (outcomes text (before ++ p :: after) s.started).eraseIdx before.length := by
        rw [(hgoes _).2, (hgoes _).2, houtcomes, ← hlength,
          List.eraseIdx_append_of_length_le (Nat.le_refl _), Nat.sub_self, List.eraseIdx_cons_zero]
      refine ⟨⟨s', hpiece, congrArg (·.catalog) hcore, congrArg (·.options) hcore, houtput,
        (congrArg (·.context) hcore).trans hresumes.context⟩, herase, ?_, ?_⟩
      · rw [(hgoes _).1, (hgoes _).1]
        exact congrArg (·.catalog) hpieces.symm
      · have hwith := pieces_account text (before ++ p :: after) s.started rfl
        have hwithout := pieces_account text (before ++ after) s.started rfl
        have hends := hwith.aborted
        rw [(hgoes _).2, houtcomes, (hgoes _).1, haborted, failuresOf_insert] at hends
        rw [hwith.errors, hwithout.errors, (hgoes _).2, (hgoes _).2, houtcomes, failuresOf_insert,
          failuresOf_append, List.countP_append, List.countP_append]
        cases hf : f.isRestartable with
        | true =>
            rw [List.countP_cons_of_pos (p := fun f : Failure => f.isRestartable) hf]
            omega
        | false =>
            -- a failure that is no mistake of the program would have ended the text
            rw [List.countP_append, List.countP_cons_of_pos (by rw [hf]; rfl)] at hends
            simp [started] at hends
  · obtain ⟨⟨shown, hevents, hlength⟩, houtput⟩ := process_account s text
    refine ⟨⟨shown, hevents, hlength, ?_⟩, houtput, outcomes_fit text _ _⟩
    rw [← List.length_eq_zero_iff, hlength]
    show (((s.process text).2.errors == 0) && !(s.process text).2.aborted) = true ↔ _
    cases (s.process text).2.aborted with
    | true => simp
    | false => simp

/-- An assignment, a name that nothing defines, and a use of the
variable. -/
def undefinedName : List Char := "x := 1;y;x".toList

/-- The pieces before and after the name that nothing defines. -/
def aroundUndefined : List Piece × List Piece :=
  ([⟨.statement "x := 1".toList, 0⟩], [⟨.statement ['x'], 9⟩])

/-- Without the second statement the use of the variable compiles as it
does, and the error is gone. -/
theorem failed_piece_costs_only_itself_undefined_name :
    Piece.split undefinedName
      = aroundUndefined.1 ++ ⟨.statement ['y'], 7⟩ :: aroundUndefined.2 ∧
    (({} : Session).process undefinedName).2.errors = 1 ∧
    outcomes undefinedName (aroundUndefined.1 ++ aroundUndefined.2) ({} : Session).started
      = (outcomes undefinedName (Piece.split undefinedName) ({} : Session).started).eraseIdx
          aroundUndefined.1.length ∧
    (pieces undefinedName (aroundUndefined.1 ++ aroundUndefined.2)
      ({} : Session).started).errors = 0 := by
  have hsplit : Piece.split undefinedName
      = aroundUndefined.1 ++ ⟨.statement ['y'], 7⟩ :: aroundUndefined.2 := by decide +kernel
  have haborted : (({} : Session).process undefinedName).2.aborted = false := by decide +kernel
  have herrors : (({} : Session).process undefinedName).2.errors = 1 := by decide +kernel
  have hsecond : ((outcomes undefinedName (Piece.split undefinedName)
      ({} : Session).started)[aroundUndefined.1.length]?.any fun o => !o.isOk) = true := by
    decide +kernel
  obtain ⟨f, hf⟩ : ∃ f, (outcomes undefinedName (Piece.split undefinedName)
      ({} : Session).started)[aroundUndefined.1.length]? = some (.error f) := by
    obtain ⟨second, hget, hfails⟩ := (Option.any_eq_true _ _).mp hsecond
    cases second with
    | ok made => cases hfails
    | error f => exact ⟨f, hget⟩
  have hcosts := failed_piece_costs_only_itself.1 {} undefinedName aroundUndefined.1
    aroundUndefined.2 ⟨.statement ['y'], 7⟩ f rfl rfl rfl haborted hsplit hf
  refine ⟨hsplit, herrors, hcosts.2.1, ?_⟩
  have hfewer := hcosts.2.2.2
  omega

end Session

end RelQuery
