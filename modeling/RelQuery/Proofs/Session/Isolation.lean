/-
When a statement compiled on its own is isolated from what came before.

A session has two ways in. Working through a text clears the context
after every failure. Compiling one statement does not: if it fails
inside a level, the level stays open. Along any series of calls the
context is therefore fresh or has an open level (`Context.IsRegular`),
and that decides everything. With nothing open a statement compiles as
in a new session with the same catalog and options. With a level left
open no statement compiles, until working through a text meets a
failure.
-/
import RelQuery.Proofs.Build.Descent
import RelQuery.Proofs.Session.Recovery

namespace RelQuery

-- ========================================================= contexts

namespace Context

variable {c c' : Context}

/-- Nothing is open and nothing is left from before, or a level is
open. -/
def IsRegular (c : Context) : Prop :=
  c = .fresh ∨ c.depth ≠ 0

/-- A context kept from a fresh one is fresh. -/
theorem Kept.fresh (h : c.Kept c') (hc : c = .fresh) : c' = .fresh := by
  subst hc
  have hscopes := Scopes.Widens.fresh h.scopes
  have hcounters : c'.counters = .fresh := by
    rw [h.counters, h.refused rfl]
    rfl
  obtain ⟨scopes, counters⟩ := c'
  cases hscopes
  cases hcounters
  rfl

/-- A context kept from a regular one is regular. -/
theorem Kept.isRegular (h : c.Kept c') (hc : c.IsRegular) : c'.IsRegular := by
  rcases hc with hfresh | hopen
  · exact .inl (h.fresh hfresh)
  · exact .inr (by rw [h.depth]; exact hopen)

/-- A context fallen from a regular one is regular. -/
theorem Falls.isRegular (h : c.Falls c') (hc : c.IsRegular) : c'.IsRegular := by
  rcases h with hkept | hdeeper
  · exact hkept.isRegular hc
  · exact .inr (Nat.ne_of_gt (Nat.zero_lt_of_lt hdeeper))

theorem IsRegular.eq_fresh (h : c.IsRegular) (hc : c.depth = 0) : c = .fresh :=
  h.resolve_right fun hopen => hopen hc

theorem depth_fresh (h : c = .fresh) : c.depth = 0 := by
  rw [h]
  rfl

end Context

-- ======================================================= statements

namespace SessionStep

open Session

variable {s s' : Session} {text source : List Char} {offset : Nat}

/-- Preparing a statement keeps the context regular, and succeeds only
with nothing open. -/
theorem prepare_isRegular (catalog : Catalog) {context : Context} (text : List Char) (offset : Nat)
    (source : List Char) (h : context.IsRegular) :
    (prepare catalog context text offset source).2.IsRegular ∧
      (context.depth ≠ 0 → ∃ f, (prepare catalog context text offset source).1 = .error f) := by
  unfold prepare
  cases Sentence.read text with
  | error e => exact ⟨h, fun _ => ⟨_, rfl⟩⟩
  | ok sentence =>
      dsimp only
      cases hbuild : Build.statement catalog sentence { context } with
      | error f w =>
          have hfalls := Build.statement_falls catalog sentence _ f w hbuild
          exact ⟨hfalls.isRegular h, fun _ => ⟨_, rfl⟩⟩
      | ok st w =>
          obtain ⟨⟨slots, hgrows⟩, -⟩ := Build.statement_eq_ok hbuild
          have hkept : context.Kept w.context := hgrows.kept
          dsimp only
          cases hopen : decide (w.context.depth ≠ 0) || !w.context.inSync with
          | true => exact ⟨hkept.isRegular h, fun _ => ⟨_, rfl⟩⟩
          | false =>
              have hclosed : w.context.depth = 0 := by
                simpa using (Bool.or_eq_false_iff.mp hopen).1
              rw [if_neg Bool.false_ne_true]
              refine ⟨?_, fun hdeep => absurd (hkept.depth ▸ hclosed) hdeep⟩
              cases emit st (.ofOffset source (offset + 0)) with
              | error f => exact hkept.isRegular h
              | ok code => exact hkept.isRegular h

/-- Running keeps the context. -/
theorem context_ran (s : Session) (code : List UInt8) : (s.ran code).context = s.context := by
  unfold ran
  split
  · rfl
  · rfl

/-- However a statement ends, the context is the one that preparing it
left. -/
theorem context_compileStatement (s : Session) (text : List Char) (offset : Nat)
    (source : List Char) :
    (s.compileStatement text offset source).2.context
      = (prepare s.catalog s.context text offset source).2 := by
  unfold compileStatement
  rw [statement_eq]
  cases prepare s.catalog s.context text offset source with
  | mk prepared context =>
      cases prepared with
      | error f => rfl
      | ok prepared =>
          obtain ⟨st, code⟩ := prepared
          dsimp only
          rw [complete_eq]
          have hran := context_ran (s.showing context (s.preview text st code)) code
          cases (s.showing context (s.preview text st code)).evaluate code with
          | error e => exact hran
          | ok value =>
              dsimp only
              cases (s.showing context (s.preview text st code)).catalog.register st with
              | error e => exact hran
              | ok catalog => exact hran

/-- Compiling a statement leaves a regular context, also when it fails. -/
theorem compileStatement_isRegular (text source : List Char) (offset : Nat)
    (h : s.context.IsRegular) :
    (s.compileStatement text offset source).2.context.IsRegular := by
  rw [context_compileStatement]
  exact (prepare_isRegular s.catalog text offset source h).1

/-- With a level left open no statement compiles. -/
theorem compileStatement_of_open (h : s.context.IsRegular) (hopen : s.context.depth ≠ 0) :
    ∃ f, (s.compileStatement text offset source).1 = .error f := by
  obtain ⟨f, hf⟩ := (prepare_isRegular s.catalog text offset source h).2 hopen
  unfold compileStatement
  rw [statement_eq]
  generalize prepare s.catalog s.context text offset source = prepared at hf
  obtain ⟨prepared, context⟩ := prepared
  cases hf
  exact ⟨f, rfl⟩

/-- A piece that succeeds keeps the context regular. -/
theorem piece_isRegular {p : Piece} {u : Unit} (h : s.context.IsRegular)
    (hp : piece source p s = .ok u s') : s'.context.IsRegular := by
  unfold piece at hp
  generalize p.body = body at hp
  cases body with
  -- a statement that succeeds has closed what it opened
  | statement text =>
      have hregular := compileStatement_isRegular text source p.offset h
      unfold compileStatement at hregular
      cases hstatement : statement text p.offset source s with
      | ok c s₁ =>
          rw [hstatement] at hregular
          dsimp only at hp
          rw [bind_of_ok hstatement] at hp
          cases hp
          exact hregular
      | error f s₁ =>
          dsimp only at hp
          rw [bind_of_error hstatement] at hp
          cases hp
  -- a directive does not touch the context
  | directive text =>
      obtain ⟨ask, hobeys⟩ := directive_obeys text
      dsimp only at hp
      cases hdirective : directive text s with
      | ok v s₁ =>
          rw [hdirective] at hp
          cases hp
          rw [(hobeys.advances hdirective).2]
          exact h
      | error f s₁ =>
          rw [hdirective] at hp
          cases hp

end SessionStep

-- ========================================================= sessions

namespace Session

open SessionStep

/-- A call on a session. -/
inductive Call where
  | process (text : List Char)
  | compile (text : List Char) (offset : Nat) (source : List Char)
  | takeOutput

/-- The session after a call. -/
def perform (s : Session) : Call → Session
  | .process text => (s.process text).2
  | .compile text offset source => (s.compileStatement text offset source).2
  | .takeOutput => s.takeOutput.2

/-- The session after a series of calls. -/
def after (s : Session) (calls : List Call) : Session :=
  calls.foldl perform s

variable {s s' : Session} {source : List Char}

/-- A session that runs no code and never ran any, in a regular
context. -/
structure IsPlain (s : Session) : Prop where
  evaluator : s.evaluator = none
  runs : s.runs = 0
  context : s.context.IsRegular

/-- An advance that leaves a regular context leaves the session plain. -/
theorem IsPlain.of_advances {made : Option Compiled} (h : s.IsPlain) (hs : s.Advances s' made)
    (hcontext : s'.context.IsRegular) : s'.IsPlain :=
  ⟨hs.evaluator.trans h.evaluator, (hs.runs h.evaluator).trans h.runs, hcontext⟩

/-- Recovering makes a session plain again. -/
theorem IsPlain.recover (h : s.IsPlain) (hs : s.Advances s' none) (f : Failure)
    (source : List Char) :
    (s'.recover f source).IsPlain := by
  have hcore := (s'.recover_eq f source).1
  exact ⟨(congrArg Session.evaluator hcore).trans (hs.evaluator.trans h.evaluator),
    (congrArg Session.runs hcore).trans ((hs.runs h.evaluator).trans h.runs),
    .inl (congrArg Session.context hcore)⟩

/-- A session stays plain over all pieces of a text. -/
theorem pieces_isPlain (source : List Char) (ps : List Piece) (h : s.IsPlain) :
    (pieces source ps s).IsPlain := by
  induction ps generalizing s with
  | nil => exact h
  | cons p rest ih =>
      unfold pieces
      obtain ⟨made, s₁, -, hpiece, hadvances, -, -⟩ | ⟨f, s₁, -, hpiece, hadvances, -, -⟩ :=
        piece_cases source p s
      · rw [hpiece]
        exact ih (h.of_advances hadvances (piece_isRegular h.context hpiece))
      · rw [hpiece]
        dsimp only
        have hrecovered := h.recover hadvances f source
        split
        · exact hrecovered
        · exact ih hrecovered

/-- A call on a plain session leaves a plain session. -/
theorem perform_isPlain (call : Call) (h : s.IsPlain) : (s.perform call).IsPlain := by
  cases call with
  | process text => exact pieces_isPlain text _ ⟨h.evaluator, h.runs, h.context⟩
  | takeOutput => exact ⟨h.evaluator, h.runs, h.context⟩
  | compile text offset source =>
      have hregular := compileStatement_isRegular text source offset h.context
      show (s.compileStatement text offset source).2.IsPlain
      unfold compileStatement at hregular ⊢
      cases hstatement : statement text offset source s with
      | ok c s₁ =>
          rw [hstatement] at hregular
          exact h.of_advances (statement_eq_ok hstatement).1 hregular
      | error f s₁ =>
          rw [hstatement] at hregular
          exact h.of_advances (statement_eq_error hstatement).1 hregular

/-- A session stays plain over all calls. -/
theorem after_isPlain (calls : List Call) (h : s.IsPlain) : (s.after calls).IsPlain := by
  induction calls generalizing s with
  | nil => exact h
  | cons call rest ih => exact ih (perform_isPlain call h)

/-- A text is worked through with nothing open from its first failure
on, or all along. -/
theorem pieces_clear (source : List Char) (ps : List Piece)
    (h : s.context = .fresh ∨ s.errors = 0 ∧ s.aborted = false) :
    (pieces source ps s).context = .fresh ∨
      s.context ≠ .fresh ∧ (pieces source ps s).errors = 0 ∧
        (pieces source ps s).aborted = false := by
  -- the induction is on the pieces; nothing is open, or there has been no
  -- failure yet
  induction ps generalizing s with
  | nil => 
      rcases h with hfresh | hnone
      · exact .inl hfresh
      · by_cases hfresh : s.context = .fresh
        · exact .inl hfresh
        · exact .inr ⟨hfresh, hnone⟩
  | cons p rest ih =>
      unfold pieces
      obtain ⟨made, s₁, -, hpiece, hadvances, -, hkeeps⟩ | ⟨f, s₁, -, hpiece, -, -, -⟩ :=
        piece_cases source p s
      · rw [hpiece]
        have hnext : s₁.context = .fresh ∨ s₁.errors = 0 ∧ s₁.aborted = false := by
          rw [hadvances.errors, hadvances.aborted]
          exact h.imp_left hkeeps
        rcases ih hnext with hfresh | ⟨hopen, hnone⟩
        · exact .inl hfresh
        · exact .inr ⟨fun hfresh => hopen (hkeeps hfresh), hnone⟩
      -- recovering closes everything
      · have hfresh : (s₁.recover f source).context = .fresh :=
          congrArg Session.context (s₁.recover_eq f source).1
        rw [hpiece]
        dsimp only
        split
        · exact .inl hfresh
        · exact (ih (.inl hfresh)).imp_right fun hopen => absurd hfresh hopen.1

/-- Only compiling a single statement can leave a level open, and only
by failing; working through a text that fails closes it. -/
theorem process_clear (s : Session) (text : List Char) :
    (s.context = .fresh → (s.process text).2.context = .fresh) ∧
      ((s.process text).1 = false → (s.process text).2.context = .fresh) := by
  have hclear : (s.process text).2.context = .fresh ∨ s.context ≠ .fresh ∧
      (s.process text).2.errors = 0 ∧ (s.process text).2.aborted = false :=
    pieces_clear text _ (.inr ⟨rfl, rfl⟩)
  refine ⟨fun hfresh => hclear.resolve_right fun hopen => hopen.1 hfresh, fun hfails => ?_⟩
  refine hclear.resolve_right fun hnone => ?_
  have hresult : (((s.process text).2.errors == 0) && !(s.process text).2.aborted) = false := hfails
  rw [hnone.2.1, hnone.2.2] at hresult
  cases hresult

/-- Compiling a statement that succeeds in a fresh context leaves a fresh
one. -/
theorem compileStatement_clear {c : Compiled} {text : List Char} {offset : Nat}
    (hs : s.context = .fresh) (h : (s.compileStatement text offset source).1 = .ok c) :
    (s.compileStatement text offset source).2.context = .fresh := by
  have hsettled := statement_settled text offset source s hs
  unfold compileStatement at h ⊢
  cases hstatement : statement text offset source s with
  | ok c' s₁ =>
      rw [hstatement] at hsettled
      exact hsettled
  | error f s₁ =>
      rw [hstatement] at h
      cases h

/-- With nothing open a statement compiles as in a new session. -/
theorem compileStatement_of_closed (h : s.IsPlain) (hs : s.context.depth = 0) (text : List Char)
    (offset : Nat) (source : List Char) :
    (s.compileStatement text offset source).1
      = (({ options := s.options, catalog := s.catalog } : Session).compileStatement text offset
          source).1 := by
  have hcore : s.core = ({ options := s.options, catalog := s.catalog } : Session).core := by
    unfold core
    rw [h.evaluator, h.runs, h.context.eq_fresh hs]
  -- the outcome is all that is left of a result next to the session
  have hanswer (t t' : Session) (hsame : resultCore (statement text offset source t)
      = resultCore (statement text offset source t')) :
      (t.compileStatement text offset source).1 = (t'.compileStatement text offset source).1 := by
    unfold compileStatement
    generalize statement text offset source t = r at hsame ⊢
    generalize statement text offset source t' = r' at hsame ⊢
    cases r with
    | ok c t₁ =>
        cases r' with
        | ok c' t₂ => rw [(EStateM.Result.ok.inj hsame).1]
        | error f t₂ => cases hsame
    | error f t₁ =>
        cases r' with
        | ok c t₂ => cases hsame
        | error f' t₂ => rw [(EStateM.Result.error.inj hsame).1]
  refine hanswer _ _ ?_
  rw [statement_core, hcore, ← statement_core]

/-- A statement compiled on its own is isolated from earlier failures
unless one has left a level open. Along every series of calls: with
nothing open the outcome is that in a new session with the catalog and
the options; with a level open there is no outcome but failure. A level
is left open by a single statement that fails, by no other call, and a
text that does not succeed closes it. -/
theorem compiled_alone_is_isolated_unless_level_open (options : Options) (catalog : Catalog)
    (calls : List Call) (s : Session) (hs : s = ({ options, catalog } : Session).after calls)
    (text source : List Char) (offset : Nat) :
    (s.context.depth = 0 → (s.compileStatement text offset source).1
      = (({ options := s.options, catalog := s.catalog } : Session).compileStatement text offset
          source).1) ∧
    (s.context.depth ≠ 0 → ∃ f, (s.compileStatement text offset source).1 = .error f) ∧
    (s.context.depth = 0 → ∀ call, (s.perform call).context.depth ≠ 0 →
      ∃ text offset source f, call = .compile text offset source ∧
        (s.compileStatement text offset source).1 = .error f) ∧
    ((s.process text).1 = false → (s.process text).2.context.depth = 0) := by
  -- the one invariant of all calls: the context is regular and nothing else has
  -- been left behind
  have hplain : s.IsPlain := by
    rw [hs]
    exact after_isPlain calls ⟨rfl, rfl, .inl rfl⟩
  refine ⟨fun hclosed => compileStatement_of_closed hplain hclosed text offset source,
    compileStatement_of_open hplain.context, fun hclosed call hopen => ?_, fun hfails => ?_⟩
  -- nothing is open, and the call is the one to have opened something
  · have hfresh := hplain.context.eq_fresh hclosed
    cases call with
    | process text =>
        exact absurd (Context.depth_fresh ((s.process_clear text).1 hfresh)) hopen
    | takeOutput => exact absurd hclosed hopen
    | compile text offset source =>
        cases hresult : (s.compileStatement text offset source).1 with
        | ok c => exact absurd (Context.depth_fresh (compileStatement_clear hfresh hresult)) hopen
        | error f => exact ⟨text, offset, source, f, rfl, hresult⟩
  · exact Context.depth_fresh ((s.process_clear text).2 hfails)

/-- A predicate that reads a column which is not there. -/
def strayPredicate : List Char := "{{a := 1}}.where(b)".toList

/-- The session after that statement. -/
def afterStrayPredicate : Session :=
  ({} : Session).after [.compile strayPredicate 0 strayPredicate]

/-- The level of the predicate stays open, so that a number does not
compile which compiles in a new session; a text that fails closes it. -/
theorem compiled_alone_is_isolated_unless_level_open_stray_predicate :
    afterStrayPredicate.context.depth = 1 ∧
    (∃ f, (afterStrayPredicate.compileStatement ['1'] 0 ['1']).1 = .error f) ∧
    (∃ c, (({} : Session).compileStatement ['1'] 0 ['1']).1 = .ok c) ∧
    (afterStrayPredicate.process ['1']).2.context.depth = 0 := by
  have hdepth : afterStrayPredicate.context.depth = 1 := by decide +kernel
  have hnew : (({} : Session).compileStatement ['1'] 0 ['1']).1.isOk = true := by decide +kernel
  have hprocess : (afterStrayPredicate.process ['1']).1 = false := by decide +kernel
  obtain ⟨-, hopen, -, hcloses⟩ := compiled_alone_is_isolated_unless_level_open {} {}
    [.compile strayPredicate 0 strayPredicate] afterStrayPredicate rfl ['1'] ['1'] 0
  refine ⟨hdepth, hopen (by rw [hdepth]; exact Nat.one_ne_zero), ?_, hcloses hprocess⟩
  generalize (({} : Session).compileStatement ['1'] 0 ['1']).1 = result at hnew
  cases result with
  | ok c => exact ⟨c, rfl⟩
  | error f => cases hnew

end Session

end RelQuery
