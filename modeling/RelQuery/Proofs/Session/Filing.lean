/-
Failures are filed by their codes.

The codes come in ranges, one for each kind of failure. Every stage of
a session chooses kind and code on its own: reading, building, the check
of types, making code, running it, the catalog and directives. For each
of them the code lies in the range of the kind (`Covers`), with one
exception. A call with more arguments than its instruction can count is
found when code is made, where all failures are defects, and has a code
of the range for running programs.

What a session reports are the failures of the pieces of a text, each
with its own diagnostic (`pieces_report`), and failures of statements
that are compiled alone.
-/
import RelQuery.Proofs.Code.Fault
import RelQuery.Proofs.Session.Recovery

namespace RelQuery

-- =========================================================== ranges

namespace FailureKind

/-- The first and the last code of a kind. -/
def codes : FailureKind → Nat × Nat
  | .parse => (1, 99)
  | .semantic => (100, 199)
  | .program => (200, 299)
  | .internal => (300, 399)
  | .system => (400, 499)

/-- The code lies in the range of the kind. -/
def Covers (kind : FailureKind) (code : Code) : Prop :=
  kind.codes.1 ≤ code.number ∧ code.number ≤ kind.codes.2

instance (kind : FailureKind) (code : Code) : Decidable (kind.Covers code) :=
  inferInstanceAs (Decidable (_ ∧ _))

/-- Ranges do not overlap. -/
theorem Covers.unique {kind kind' : FailureKind} {code : Code} (h : kind.Covers code)
    (h' : kind'.Covers code) : kind = kind' := by
  unfold Covers at h h'
  cases kind <;> cases kind' <;> simp only [codes] at h h' <;> first | rfl | omega

end FailureKind

open FailureKind

namespace Failure

/-- A failure has the kind that covers its code, and no other kind
does. -/
def IsFiled : Failure → Prop
  | .single kind code _ _ => ∀ k : FailureKind, k = kind ↔ k.Covers code
  | .several _ => False

/-- A defect with a code for running programs: a call with more
arguments than its instruction can count. -/
def IsOverflow (f : Failure) : Prop :=
  ∃ name n, 255 < n ∧
    f = .make .internal Code.unsupported (EncodeError.arityOverflow name n).message

theorem isFiled_single {kind : FailureKind} {code : Code} (h : kind.Covers code) (message : String)
    (location : Option Location) : (Failure.single kind code message location).IsFiled :=
  fun _ => ⟨fun hk => hk ▸ h, fun hk => hk.unique h⟩

/-- A failure stays filed when it is given a place. -/
theorem IsFiled.orAt {f : Failure} (h : f.IsFiled) (place : Location) : (f.orAt place).IsFiled := by
  cases f with
  | single kind code message location =>
      cases location with
      | none => exact h
      | some => exact h
  | several failures => exact h

theorem IsOverflow.not_isFiled {f : Failure} (h : f.IsOverflow) : ¬ f.IsFiled := by
  obtain ⟨name, n, -, rfl⟩ := h
  exact fun hfiled => absurd ((hfiled .internal).mp rfl) (by decide)

/-- A filed failure allows no restart just if its code is an internal one. -/
theorem IsFiled.isRestartable {f : Failure} (h : f.IsFiled) :
    f.isRestartable = false ↔ FailureKind.internal.Covers f.code := by
  cases f with
  | single kind code message location =>
      have hinternal := h .internal
      rw [eq_comm] at hinternal
      simpa [Failure.isRestartable, Failure.code] using hinternal
  | several failures => exact h.elim

/-- What ends a text: a code for defects, or a call with too many
arguments. -/
theorem isRestartable_eq_false {f : Failure} (h : f.IsFiled ∨ f.IsOverflow) :
    f.isRestartable = false ↔ FailureKind.internal.Covers f.code ∨ f.IsOverflow := by
  obtain hfiled | hoverflow := h
  · rw [hfiled.isRestartable, or_iff_left fun hoverflow => hoverflow.not_isFiled hfiled]
  · obtain ⟨name, n, -, rfl⟩ := id hoverflow
    exact iff_of_true rfl (.inr hoverflow)

/-- Where every failure is filed or an overflow, the others are the
overflows. -/
theorem not_isFiled_iff {f : Failure} (h : f.IsFiled ∨ f.IsOverflow) :
    ¬ f.IsFiled ↔ f.IsOverflow :=
  ⟨h.resolve_left, IsOverflow.not_isFiled⟩

end Failure

-- ========================================================== stages

/-- What a parser misses has a code of parsing. -/
theorem Miss.describe_covers (m : Miss) (atEnd : Bool) :
    FailureKind.parse.Covers (m.describe atEnd).1 := by
  unfold describe
  split
  · exact of_decide_eq_true rfl
  · exact of_decide_eq_true rfl
  · exact of_decide_eq_true rfl
  · exact of_decide_eq_true rfl
  · split
    · exact of_decide_eq_true rfl
    · split <;> exact of_decide_eq_true rfl

/-- What cannot be read has a code of parsing. -/
theorem Sentence.read_covers {text : List Char} {e : ReadError}
    (h : Sentence.read text = .error e) : FailureKind.parse.Covers e.code := by
  unfold Sentence.read at h
  split at h
  · dsimp only at h
    split at h
    · cases h
    · cases h
      exact of_decide_eq_true rfl
  · cases h
    exact Miss.describe_covers _ _

/-- What a catalog refuses has a code of its kind. -/
theorem CatalogError.covers (e : CatalogError) :
    (if e.isSystem then FailureKind.system else .semantic).Covers e.code := by
  cases e with
  | overload e => cases e <;> exact of_decide_eq_true rfl
  | kindConflict name kind => exact of_decide_eq_true rfl
  | loadFailed reason => exact of_decide_eq_true rfl

/-- What a builder refuses has a code of its kind. -/
theorem BuildError.covers (e : BuildError) : e.kind.Covers e.code := by
  cases e with
  | type e => cases e <;> exact of_decide_eq_true rfl
  | allBut e => cases e <;> exact of_decide_eq_true rfl
  | heading e => cases e <;> exact of_decide_eq_true rfl
  | context e =>
      cases e with
      | scope e => cases e <;> exact of_decide_eq_true rfl
      | counter e => cases e <;> exact of_decide_eq_true rfl
  | catalog e => exact e.covers
  | _ => exact of_decide_eq_true rfl

theorem RunError.covers (e : RunError) : FailureKind.program.Covers e.code := by
  cases e <;> exact of_decide_eq_true rfl

/-- What cannot be encoded has an internal code, except for the overflow of
arguments. -/
theorem EncodeError.covers (e : EncodeError) :
    FailureKind.internal.Covers e.code ∨ ∃ name n, e = .arityOverflow name n := by
  cases e with
  | arityOverflow name n => exact .inr ⟨name, n, rfl⟩
  | _ => exact .inl (of_decide_eq_true rfl)

-- ========================================================= sessions

namespace SessionStep

open Failure

variable {text source : List Char} {offset : Nat} {s s' : Session} {f : Failure}

/-- A text that is built into a statement with a call of more than 255
arguments, for which no code can be made. -/
def Overflows (catalog : Catalog) (context : Context) (text : List Char) : Prop :=
  ∃ sentence st w name n, Sentence.read text = .ok sentence ∧
    Build.statement catalog sentence { context } = .ok st w ∧ 255 < n ∧
    st.emit = .error (.arityOverflow name n)

theorem refusal_isFiled (e : CatalogError) : (refusal e).IsFiled :=
  isFiled_single e.covers _ _

/-- All failures of making code are defects; the code of one is not. -/
theorem emit_eq_error {st : Statement} {start : Location} (h : emit st start = .error f) :
    f.IsFiled ∨ (f.IsOverflow ∧ ∃ name n, 255 < n ∧ st.emit = .error (.arityOverflow name n)) := by
  unfold emit at h
  split at h
  · cases h
    exact .inl ((isFiled_single (of_decide_eq_true rfl) _ _).orAt start)
  · cases hemit : st.emit with
    | ok code =>
        rw [hemit] at h
        cases h
    | error e =>
        rw [hemit] at h
        cases h
        obtain hcovers | ⟨name, n, rfl⟩ := e.covers
        · exact .inl (isFiled_single hcovers _ _)
        · have hn := Statement.lt_of_emit_arityOverflow hemit
          exact .inr ⟨⟨name, n, hn, rfl⟩, name, n, hn, rfl⟩

/-- A preparation fails with a filed failure, or with an overflow that the
text asks for. -/
theorem prepare_eq_error {catalog : Catalog} {context context' : Context}
    (h : prepare catalog context text offset source = (.error f, context')) :
    f.IsFiled ∨ (f.IsOverflow ∧ Overflows catalog context text) := by
  -- reading, building, the check for what was left open, and emitting, in this
  -- order
  unfold prepare at h
  dsimp only at h
  cases hread : Sentence.read text with
  | error e =>
      rw [hread] at h
      cases h
      exact .inl (isFiled_single (Sentence.read_covers hread) _ _)
  | ok sentence =>
      simp only [hread] at h
      cases hbuild : Build.statement catalog sentence { context } with
      | error g w =>
          simp only [hbuild] at h
          cases h
          exact .inl (isFiled_single g.error.covers _ _)
      | ok st w =>
          simp only [hbuild] at h
          split at h
          · cases h
            exact .inl (isFiled_single (of_decide_eq_true rfl) _ _)
          · split at h
            · rename_i hemit
              cases h
              exact (emit_eq_error hemit).imp_right fun ⟨hoverflow, name, n, hn, hst⟩ =>
                ⟨hoverflow, sentence, st, w, name, n, hread, hbuild, hn, hst⟩
            · cases h

/-- A statement fails with a filed failure, or with an overflow that the
text asks for. -/
theorem statement_isFiled (h : statement text offset source s = .error f s') :
    f.IsFiled ∨ (f.IsOverflow ∧ Overflows s.catalog s.context text) := by
  rw [statement_eq] at h
  split at h
  · rename_i hprepare
    cases h
    exact prepare_eq_error hprepare
  · rw [complete_eq] at h
    split at h
    · rename_i e _
      cases h
      exact .inl (isFiled_single e.covers _ _)
    · split at h
      · rename_i e _
        cases h
        exact .inl ((refusal_isFiled e).orAt _)
      · cases h

/-- A directive fails with a filed failure. -/
theorem directive_isFiled (h : directive text s = .error f s') : f.IsFiled := by
  -- the cases are those of the words of the directive
  unfold directive at h
  generalize (Text.words text).map String.ofList = words at h
  split at h
  · rename_i level
    cases hlevel : TraceLevel.read level with
    | ok trace =>
        rw [hlevel] at h
        cases h
    | error e =>
        rw [hlevel] at h
        cases h
        exact isFiled_single (of_decide_eq_true rfl) _ _
  · rw [bind_of_ok (rfl : (get : SessionStep Session) s = .ok _ _)] at h
    cases hload : s.catalog.load with
    | ok loaded =>
        rw [hload] at h
        cases h
    | error e =>
        rw [hload] at h
        cases h
        exact refusal_isFiled e
  · cases h
  · rw [(Obeys.setExecution true).eq] at h
    cases h
  · rw [(Obeys.setExecution false).eq] at h
    cases h
  · cases h
    exact isFiled_single (of_decide_eq_true rfl) _ _

/-- A piece fails with a filed failure or with an overflow. -/
theorem outcome_isFiled {p : Piece} (h : outcome source p s = .error f) :
    f.IsFiled ∨ f.IsOverflow := by
  unfold outcome at h
  generalize p.body = body at h
  cases body with
  | statement text =>
      dsimp only at h
      unfold Session.compileStatement at h
      cases hstatement : statement text p.offset source s with
      | ok c s₁ =>
          rw [hstatement] at h
          cases h
      | error g s₁ =>
          rw [hstatement] at h
          cases h
          exact (statement_isFiled hstatement).imp_right And.left
  | directive text =>
      dsimp only at h
      cases hdirective : directive text s with
      | ok u s₁ =>
          rw [hdirective] at h
          cases h
      | error g s₁ =>
          rw [hdirective] at h
          cases h
          exact .inl ((directive_isFiled hdirective).orAt _)

end SessionStep

namespace Session

open SessionStep

variable {s s' s'' : Session} {shown shown' : List Event}

/-- All failures of a text are filed or overflows: the induction is on its
pieces. -/
theorem outcomes_isFiled (source : List Char) (ps : List Piece) (s : Session) :
    ∀ f ∈ failuresOf (outcomes source ps s), f.IsFiled ∨ f.IsOverflow := by
  induction ps generalizing s with
  | nil => exact fun _ h => absurd h List.not_mem_nil
  | cons p rest ih =>
      unfold outcomes
      obtain ⟨made, s₁, houtcome, hpiece, -, -, -⟩ | ⟨f, s₁, houtcome, hpiece, -, -, -⟩ :=
        piece_cases source p s
      · rw [houtcome, hpiece]
        exact ih s₁
      · rw [houtcome, hpiece]
        refine List.forall_mem_cons.mpr ⟨outcome_isFiled houtcome, ?_⟩
        dsimp only
        split
        · exact fun _ h => absurd h List.not_mem_nil
        · exact ih _

-- ========================================================== reports

/-- The errors among the events that were added. -/
def Reports (s s' : Session) (shown : List Event) : Prop :=
  ∃ more, s'.events = s.events ++ more ∧ more.filter Event.isError = shown

namespace Reports

theorem refl (s : Session) : Reports s s [] :=
  ⟨[], (List.append_nil _).symm, rfl⟩

/-- What two steps report is what the one does and then the other. -/
theorem trans (h : Reports s s' shown) (h' : Reports s' s'' shown') :
    Reports s s'' (shown ++ shown') := by
  obtain ⟨more, hmore, rfl⟩ := h
  obtain ⟨more', hmore', rfl⟩ := h'
  exact ⟨more ++ more', by rw [hmore', hmore, List.append_assoc], List.filter_append ..⟩

/-- A step that advances reports no failure. -/
theorem of_advances {made : Option Compiled} (h : s.Advances s' made) : Reports s s' [] := by
  obtain ⟨more, hmore, hquiet⟩ := h.events
  refine ⟨more, hmore, List.filter_eq_nil_iff.mpr fun e he => ?_⟩
  rw [hquiet e he]
  exact Bool.false_ne_true

/-- Recovering reports the failure and nothing else. -/
theorem recover (s : Session) (f : Failure) (source : List Char) :
    Reports s (s.recover f source) [.diagnostic f.diagnostic source] := by
  have hshown := f.isError_diagnostic source
  unfold Session.recover
  cases f.isRestartable with
  | true => exact ⟨_, rfl, List.filter_cons_of_pos hshown⟩
  | false => exact ⟨_, List.append_assoc .., List.filter_cons_of_pos hshown⟩

end Reports

/-- The errors that a run shows are the diagnostics of its failures. -/
theorem pieces_report (source : List Char) (ps : List Piece) (s : Session) :
    Reports s (pieces source ps s)
      ((failuresOf (outcomes source ps s)).map fun f => .diagnostic f.diagnostic source) := by
  induction ps generalizing s with
  | nil => exact .refl s
  | cons p rest ih =>
      unfold pieces outcomes
      obtain ⟨made, s₁, houtcome, hpiece, hadvances, -, -⟩ |
        ⟨f, s₁, houtcome, hpiece, hadvances, -, -⟩ := piece_cases source p s
      · rw [houtcome, hpiece]
        exact (Reports.of_advances hadvances).trans (ih s₁)
      · rw [houtcome, hpiece]
        have hfailed := (Reports.of_advances hadvances).trans (.recover s₁ f source)
        dsimp only
        split
        · exact hfailed
        · exact hfailed.trans (ih _)

/-- The failures that working through a text meets. -/
def failures (s : Session) (text : List Char) : List Failure :=
  failuresOf (outcomes text (Piece.split text) s.started)

/-- A text is given up at a failure that is not restartable. -/
theorem process_aborted (s : Session) (text : List Char) :
    (s.process text).2.aborted = true ↔ ∃ f ∈ s.failures text, f.isRestartable = false := by
  have haborted : (if (s.process text).2.aborted then 1 else 0) =
      0 + (s.failures text).countP fun f => !f.isRestartable :=
    (pieces_account text (Piece.split text) s.started rfl).aborted
  have hcount : (s.process text).2.aborted = true ↔
      0 < (s.failures text).countP fun f => !f.isRestartable := by
    cases hend : (s.process text).2.aborted with
    | true =>
        rw [hend, if_pos rfl] at haborted
        exact iff_of_true rfl (by omega)
    | false =>
        rw [hend, if_neg Bool.false_ne_true] at haborted
        exact iff_of_false Bool.false_ne_true (by omega)
  rw [hcount, List.countP_pos_iff]
  simp only [Bool.not_eq_true']

/-- Failures are filed by their codes unless a call has too many
arguments. Whatever the state of the session, a statement compiled alone
fails with the kind that covers the code, or the statement has a call
with more than 255 arguments; a text is worked through likewise, and the
errors it shows are the diagnostics of its failures. So a text is given
up at a code for defects, or at such a call. -/
theorem failures_are_filed_unless_call_overflows (s : Session) :
    (∀ (text source : List Char) (offset : Nat) (f : Failure),
      (s.compileStatement text offset source).1 = .error f →
        (¬ f.IsFiled ↔ f.IsOverflow) ∧ (f.IsOverflow → Overflows s.catalog s.context text)) ∧
    ∀ text : List Char,
      Reports s (s.process text).2
        ((s.failures text).map fun f => .diagnostic f.diagnostic text) ∧
      (∀ f ∈ s.failures text, ¬ f.IsFiled ↔ f.IsOverflow) ∧
      ((s.process text).2.aborted = true ↔
        ∃ f ∈ s.failures text, FailureKind.internal.Covers f.code ∨ f.IsOverflow) := by
  refine ⟨fun text source offset f h => ?_, fun text => ?_⟩
  · unfold compileStatement at h
    cases hstatement : statement text offset source s with
    | ok c s₁ =>
        rw [hstatement] at h
        cases h
    | error g s₁ =>
        rw [hstatement] at h
        cases h
        -- a failure that is not filed is an overflow, and then the text has such a
        -- call
        have hfiled := statement_isFiled hstatement
        refine ⟨Failure.not_isFiled_iff (hfiled.imp_right And.left), fun hoverflow => ?_⟩
        exact (hfiled.resolve_left hoverflow.not_isFiled).2
  · have hfiled := outcomes_isFiled text (Piece.split text) s.started
    refine ⟨pieces_report text (Piece.split text) s.started,
      fun f hf => Failure.not_isFiled_iff (hfiled f hf), ?_⟩
    -- a text is given up at a failure that allows no restart
    rw [process_aborted]
    refine exists_congr fun f => and_congr_right fun hf => ?_
    exact Failure.isRestartable_eq_false (hfiled f hf)

/-- A call with 256 arguments. -/
def crowdedCall : List Char :=
  "concat(''".toList ++ (List.replicate 255 ",''".toList).flatten ++ [')']

/-- The call is a defect with a code for running programs, and would
end its text. -/
theorem failures_are_filed_unless_call_overflows_crowdedCall :
    ∃ f, (({} : Session).compileStatement crowdedCall 0 crowdedCall).1 = .error f ∧
      f.code = Code.unsupported ∧ f.isRestartable = false ∧ ¬ f.IsFiled ∧ f.IsOverflow ∧
      Overflows {} .fresh crowdedCall := by
  obtain ⟨halone, -⟩ := failures_are_filed_unless_call_overflows {}
  have hrun : failsWith (fun f => f.code == Code.unsupported && !f.isRestartable)
      (statement crowdedCall 0 crowdedCall {}) = true := by decide +kernel
  obtain ⟨f, s', hstatement, hcheck⟩ := failsWith_eq_true hrun
  obtain ⟨hcode, hends⟩ := Bool.and_eq_true_iff.mp hcheck
  have hf : (({} : Session).compileStatement crowdedCall 0 crowdedCall).1 = .error f := by
    unfold compileStatement
    rw [hstatement]
  have hends : f.isRestartable = false := by simpa using hends
  have hmisfiled : ¬ f.IsFiled := fun hfiled => by
    have hcovers := hfiled.isRestartable.mp hends
    rw [eq_of_beq hcode] at hcovers
    exact absurd hcovers (by decide)
  obtain ⟨hiff, hoverflows⟩ := halone crowdedCall crowdedCall 0 f hf
  have hoverflow := hiff.mp hmisfiled
  exact ⟨f, hf, eq_of_beq hcode, hends, hmisfiled, hoverflow, hoverflows hoverflow⟩

end Session

end RelQuery
