/-
Faults of the statements of a session: which are defects of the
compiler, and where they point.

The entries that a session has collected are sound, and a statement is
built with nothing open, so building begins in a sound workspace. Then
one defect is left: `union_all` called without arguments, which has no
argument to take its type from.

A fault points at a construct of the statement, and the marks of the
constructs lie within its text. The exception is the header of a
definition, where a column named twice has no mark.
-/
import RelQuery.Proofs.Build.Blame
import RelQuery.Proofs.Grammar.Opening
import RelQuery.Proofs.Session.Storage

namespace RelQuery

-- ==================================================== sound entries

/-- An entry without placeholders returns none. -/
theorem Symbol.IsDefinite.returns {symbol : Symbol} (h : symbol.IsDefinite) :
    ∀ link ∈ symbol.links, link.returns.isPlaceholder = false :=
  fun link hlink => DataType.isPlaceholder_of_isDefinite (h.links link hlink).returns

namespace Session

/-- A type in the catalog is a user type. -/
theorem isLasting_user : Catalog.IsLasting fun entries =>
    ∀ symbol ∈ entries, symbol.kind = .userType → ∃ user, symbol.type = .user user where
  nil := fun _ h => absurd h List.not_mem_nil
  register := by
    intro c c' sentence st w hc hbuild hregister symbol hsymbol hkind
    obtain hold | ⟨entered, henters, rfl⟩ := Catalog.mem_register hregister hsymbol
    · exact hc symbol hold hkind
    · cases henters with
      | assign name value => cases hkind
      | define name link body => cases hkind
      | overload name link body hfind hdeferred hchain => cases hdeferred.symm.trans hkind
      | typeDef user => exact ⟨user, rfl⟩

/-- With nothing open no symbol stands for a slot, so a statement is
built in a sound workspace. -/
theorem within_isProper (options : Options) (evaluator : Option Evaluator) (calls : List Call)
    (source : List Char) (done : List Piece) :
    ({ context := .fresh } : Workspace).IsProper
      (({ options, evaluator } : Session).within calls source done).catalog := by
  have huser := within_stores isLasting_user options evaluator calls source done
  have hdefinite := within_stores isLasting_isDefinite options evaluator calls source done
  refine ⟨fun symbol hsymbol => ⟨huser.entries symbol hsymbol, ?_⟩, ?_⟩
  · exact (hdefinite.entries symbol hsymbol).returns
  · intro scope hscope symbol hsymbol
    obtain rfl := List.mem_singleton.mp hscope
    exact absurd hsymbol List.not_mem_nil

-- ========================================================== defects

/-- Without arguments there is none to take the type from, whatever is
in the catalog and wherever the call stands. -/
theorem expression_emptyUnion (catalog : Catalog) (keepOpen : Bool) (mark : Nat) (w : Workspace) :
    Build.expression catalog keepOpen (.call mark "union_all" []) w =
      .error ⟨.type (.unresolvedReturn "union_all"), some mark⟩ w :=
  rfl

/-- An empty call of `union_all` is the only defect. While a session
that began with no entries works through texts nothing is open between
statements; if building a statement that reads fails there with a
defect, then because of such a call in the statement, and at its mark.
The call does fail like this wherever it is built. -/
theorem only_emptyUnion_is_a_defect (options : Options) (evaluator : Option Evaluator)
    {calls : List Call} (hcalls : ∀ call ∈ calls, ∃ source, call = .process source)
    (source : List Char) (done : List Piece) {s : Session}
    (hs : s = ({ options, evaluator } : Session).within calls source done) :
    s.context = .fresh ∧
    (∀ (text : List Char) (sentence : Sentence) (f : BuildFault) (w : Workspace),
      Sentence.read text = .ok sentence →
      Build.statement s.catalog sentence { context := .fresh } = .error f w →
      f.error.kind = .internal →
        f.error = .type (.unresolvedReturn "union_all") ∧
        ∃ root ∈ sentence.expression?, ∃ mark, f.mark = some mark ∧
          (Expr.call mark "union_all" []).Inside root) ∧
    ∀ (keepOpen : Bool) (mark : Nat) (w : Workspace),
      Build.expression s.catalog keepOpen (.call mark "union_all" []) w =
        .error ⟨.type (.unresolvedReturn "union_all"), some mark⟩ w := by
  refine ⟨?_, fun text sentence f w hread hbuild hkind => ?_, expression_emptyUnion s.catalog⟩
  · rw [hs]
    exact within_fresh rfl hcalls source done
  -- the workspace is proper: its entries are callable and every slot is there
  have hproper : ({ context := .fresh } : Workspace).IsProper s.catalog := by
    rw [hs]
    exact within_isProper options evaluator calls source done
  obtain ⟨-, c, rfl⟩ | ⟨⟨mark, hmark, -, hcause⟩, -⟩ := Build.statement_eq_error
    (Q := fun mark => ∃ root ∈ sentence.expression?, (Expr.call mark "union_all" []).Inside root)
    (Sentence.isPlaced_of_read hread) (fun root hroot mark hinside => ⟨root, hroot, hinside⟩) hbuild
  -- a repeated column in a header is the program's, any other fault is accounted
  -- for
  · cases hkind
  · obtain ⟨herror, root, hroot, hinside⟩ := hcause hproper hkind
    exact ⟨herror, root, hroot, mark, hmark, hinside⟩

/-- A type, and a function that makes a value of it from an empty
call. -/
def emptyUnion : List Char × List Char :=
  ("type p(x: number)".toList, "def f() => p(union_all()).x".toList)

/-- The type is entered; the function is not, and its fault points into
the arguments of the call around. -/
theorem only_emptyUnion_is_a_defect_in_arguments :
    ∃ s : Session, s = ({} : Session).within [.process emptyUnion.1] [] [] ∧
      s.catalog.entries.map (·.name) = ["p"] ∧ s.context = .fresh ∧
      ∃ sentence f w, Sentence.read emptyUnion.2 = .ok sentence ∧
        Build.statement s.catalog sentence { context := .fresh } = .error f w ∧
        f.error.kind = .internal ∧ f.error.code = Code.placeholderLeft ∧
        ∃ root ∈ sentence.expression?, ∃ mark, f.mark = some mark ∧
          (Expr.call mark "union_all" []).Inside root := by
  obtain ⟨hcontext, hdefect, -⟩ := only_emptyUnion_is_a_defect {} none
    (List.forall_mem_singleton.mpr ⟨emptyUnion.1, rfl⟩) [] [] rfl
  have hrun : Sentence.readsAs (fun sentence =>
      failsWith (fun f => f.error.kind = .internal) (Build.statement
        (({} : Session).within [.process emptyUnion.1] [] []).catalog sentence
        { context := .fresh })) emptyUnion.2 = true := by decide +kernel
  obtain ⟨sentence, hread, hfails⟩ := Sentence.readsAs_eq_true hrun
  obtain ⟨f, w, hbuild, hcheck⟩ := failsWith_eq_true hfails
  have hkind := of_decide_eq_true hcheck
  obtain ⟨herror, hinside⟩ := hdefect _ sentence f w hread hbuild hkind
  exact ⟨_, rfl, by decide +kernel, hcontext, sentence, f, w, hread, hbuild, hkind,
    by rw [herror]; rfl, hinside⟩

end Session

-- =========================================================== places

/-- A session fails to build a sentence where the builder does, on its
catalog and its context. -/
theorem SessionStep.build_eq_error {sentence : Sentence} {locate : Nat → Location} {s s' : Session}
    {failure : Failure} : build sentence locate s = .error failure s' ↔
      ∃ f w, Build.statement s.catalog sentence { context := s.context } = .error f w ∧
        f.failure locate = failure ∧ { s with context := w.context } = s' := by
  unfold build
  cases Build.statement s.catalog sentence { context := s.context } with
  | ok st w => simp
  | error f w => simp

/-- A fault is located unless the header of a definition names a column
twice. Whatever is in the catalog and open in the context, a sentence
read from a text that stands at `offset` in `source` fails at a place
from the beginning of that text to its end; just a column named twice
in its header is reported without a place. -/
theorem SessionStep.build_locates_unless_header_repeats {text : List Char} {sentence : Sentence}
    (hread : Sentence.read text = .ok sentence) (source : List Char) (offset : Nat)
    {s s' : Session} {kind : FailureKind} {code : Code} {message : String}
    {location : Option Location} (hkind : kind = .semantic ∨ kind = .internal)
    (h : build sentence (fun mark => .ofOffset source (offset + mark)) s =
      .error (.single kind code message location) s') :
    ((Failure.single kind code message location).location = none ↔
      sentence.headerRepeats = true ∧ code = Code.duplicateColumn) ∧
    ∀ place ∈ (Failure.single kind code message location).location,
      place = .ofOffset source place.offset ∧
        offset ≤ place.offset ∧ place.offset ≤ offset + Text.byteLength text := by
  have hlocation : (Failure.single kind code message location).location = location := by
    obtain rfl | rfl := hkind
    · rfl
    · rfl
  -- the failure has the place that it was given, for neither kind hides it
  rw [hlocation]
  obtain ⟨f, w, hbuild, hf, -⟩ := build_eq_error.mp h
  cases hf
  obtain ⟨hrepeats, c, rfl⟩ | ⟨⟨mark, hmark, hin, -⟩, hunknown⟩ := Build.statement_eq_error
    (Q := fun _ => True) (Sentence.isPlaced_of_read hread) (fun _ _ _ _ => trivial) hbuild
  · exact ⟨⟨fun _ => ⟨hrepeats, rfl⟩, fun _ => rfl⟩, nofun⟩
  -- what else goes wrong is located; in a header that repeats a column it is
  -- another fault
  · rw [hmark]
    refine ⟨⟨nofun, fun ⟨hrepeats, hcode⟩ => ?_⟩, ?_⟩
    · obtain ⟨name, herror⟩ := hunknown hrepeats
      rw [herror] at hcode
      cases hcode
    · rintro _ ⟨⟩
      exact ⟨rfl, Nat.le_add_right offset mark, Nat.add_le_add_left hin offset⟩

/-- A parameter named twice, and an unknown name in the second line of a
source. -/
def misnamed : List Char × List Char × List Char :=
  ("def f(x: number, x: number) => x".toList, "1\n2 + z".toList, "2 + z".toList)

/-- The first has no place; the second has one, in its own line. -/
theorem SessionStep.build_locates_unless_header_repeats_misnamed :
    (∃ sentence message location s', Sentence.read misnamed.1 = .ok sentence ∧
      build sentence (fun mark => .ofOffset misnamed.1 (0 + mark)) {} =
        .error (.single .semantic Code.duplicateColumn message location) s' ∧
      (Failure.single .semantic Code.duplicateColumn message location).location = none) ∧
    ∃ sentence message location s' place, Sentence.read misnamed.2.2 = .ok sentence ∧
      build sentence (fun mark => .ofOffset misnamed.2.1 (2 + mark)) {} =
        .error (.single .semantic Code.undefinedName message location) s' ∧
      (Failure.single .semantic Code.undefinedName message location).location = some place ∧
      2 ≤ place.offset ∧ place.offset ≤ 7 := by
  -- a run of the builder tells the code of the failure and what the header
  -- repeats
  have hfails (text source : List Char) (offset : Nat) (code : Code) (repeats : Bool)
      (hrun : Sentence.readsAs (fun sentence => sentence.headerRepeats == repeats && failsWith
        (fun f => f.error.kind == .semantic && f.error.code == code)
        (Build.statement {} sentence { context := .fresh })) text = true) :
      ∃ sentence message location s', Sentence.read text = .ok sentence ∧
        sentence.headerRepeats = repeats ∧
        build sentence (fun mark => .ofOffset source (offset + mark)) {} =
          .error (.single .semantic code message location) s' := by
    obtain ⟨sentence, hread, hcheck⟩ := Sentence.readsAs_eq_true hrun
    obtain ⟨hrepeats, hfails⟩ := Bool.and_eq_true_iff.mp hcheck
    obtain ⟨f, w, hstatement, hf⟩ := failsWith_eq_true hfails
    obtain ⟨hkind, hcode⟩ := Bool.and_eq_true_iff.mp hf
    have hfailure (locate : Nat → Location) : f.failure locate =
        .single .semantic code f.error.message (f.mark.map locate) := by
      rw [BuildFault.failure, eq_of_beq hkind, eq_of_beq hcode]
    exact ⟨sentence, _, _, _, hread, eq_of_beq hrepeats,
      build_eq_error.mpr ⟨f, w, hstatement, hfailure _, rfl⟩⟩
  -- the header that repeats a column has no place
  constructor
  · obtain ⟨sentence, message, location, s', hread, hrepeats, hbuild⟩ :=
      hfails misnamed.1 misnamed.1 0 Code.duplicateColumn true (by decide +kernel)
    obtain ⟨hnone, -⟩ := build_locates_unless_header_repeats hread misnamed.1 0 (.inl rfl) hbuild
    exact ⟨sentence, message, location, s', hread, hbuild, hnone.mpr ⟨hrepeats, rfl⟩⟩
  -- any other failure has one, in the line of its statement
  · obtain ⟨sentence, message, location, s', hread, hrepeats, hbuild⟩ :=
      hfails misnamed.2.2 misnamed.2.1 2 Code.undefinedName false (by decide +kernel)
    obtain ⟨hnone, hplace⟩ :=
      build_locates_unless_header_repeats hread misnamed.2.1 2 (.inl rfl) hbuild
    have hsome : location ≠ none := fun hlocation => by
      obtain ⟨hheader, -⟩ := hnone.mp hlocation
      rw [hrepeats] at hheader
      cases hheader
    obtain ⟨place, rfl⟩ := Option.ne_none_iff_exists'.mp hsome
    obtain ⟨-, hstart, hend⟩ := hplace place rfl
    exact ⟨sentence, message, _, s', place, hread, hbuild, rfl, hstart, hend⟩

end RelQuery
