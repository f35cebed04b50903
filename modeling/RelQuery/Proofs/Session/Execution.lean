/-
What running a statement has to do with the catalog.

A statement is run before the catalog is asked. So a statement that the
catalog refuses has been run if anything was left for the catalog to
refuse. Building leaves it nothing of an assignment, whose name and type
it has compared with the entry that is there. It does not look at what
a definition or a type would replace: these are the conflicts
(`Catalog.Conflicts`), and `register_refuses_iff` says that there are no
others.
-/
import RelQuery.Proofs.Session.Preparation

namespace RelQuery

namespace Catalog

/-- The entry under the name of a definition stands in its way: it is no
function, or one with another result or another number of arguments. A
type has to have a name of its own. -/
def Conflicts (c : Catalog) : Statement → Prop
  | .define _ link _ => ∃ symbol, c.find? link.name = some symbol ∧
    (symbol.kind ≠ .deferred ∨ ∃ first, symbol.links.head? = some first ∧
      (first.returns.same link.returns = false ∨ first.arity ≠ link.arity))
  | .typeDef user => ∃ symbol, c.find? user.name = some symbol
  | .expression _ | .assign .. => False

variable {c : Catalog}

/-- A chain refuses a link just if it returns another type or takes another
number of arguments. -/
theorem overloads_refuse_iff {chain : Overloads} {link : Signature} :
    (∃ e, chain.add link = .error e) ↔ ∃ first, chain.head? = some first ∧
      (first.returns.same link.returns = false ∨ first.arity ≠ link.arity) := by
  cases chain with
  | nil => simp [Overloads.add]
  | cons first rest =>
      simp only [Overloads.add, List.head?_cons, Option.some.injEq, exists_eq_left']
      cases first.returns.same link.returns with
      | false => simp
      | true => by_cases harity : first.arity = link.arity <;> simp [harity]

/-- An overload is refused just in a conflict. -/
theorem addOverload_refuses_iff {name : String} {link : Signature} {body : Segment} :
    (∃ e, c.addOverload link = .error e) ↔ c.Conflicts (.define name link body) := by
  cases hfind : c.find? link.name with
  | none => simp [addOverload, Conflicts, hfind]
  | some symbol =>
      simp only [addOverload, Conflicts, hfind, Option.some.injEq, exists_eq_left']
      rw [← overloads_refuse_iff]
      by_cases hkind : symbol.kind = .deferred
      · cases Overloads.add symbol.links link <;> simp [hkind]
      · simp [hkind]

theorem addUserType_refuses_iff {user : UserType} :
    (∃ e, c.addUserType user = .error e) ↔ c.Conflicts (.typeDef user) := by
  cases hfind : c.find? user.name <;> simp [addUserType, Conflicts, hfind]

/-- A variable is refused if its name is that of something else. -/
theorem addVariable_ok {name : String} (type : DataType)
    (h : ∀ symbol ∈ c.find? name, symbol.kind = .catalog) :
    ∃ c', c.addVariable name type = .ok c' := by
  unfold addVariable
  cases hfind : c.find? name with
  | none => exact ⟨_, rfl⟩
  | some symbol =>
      dsimp only
      rw [if_pos (h symbol hfind)]
      exact ⟨_, rfl⟩

end Catalog

namespace Build

variable {catalog : Catalog} {w w' : Workspace} {st : Statement}

/-- An assignment has been compared with the entry of its name. -/
theorem assign_eq_ok {name : String} {value : Node}
    (h : assign catalog name value w = .ok st w') :
    st = .assign name value ∧ ∀ symbol ∈ catalog.find? name, symbol.kind = .catalog := by
  refine ⟨(assign_looks catalog name value w st w' h).2, fun symbol hsymbol => ?_⟩
  unfold assign at h
  split at h
  · exact absurd h fail_ne_ok
  · rw [Option.mem_def.mp hsymbol] at h
    dsimp only at h
    split at h
    · assumption
    · exact absurd h fail_ne_ok

/-- The definition of a function is no assignment. -/
theorem define_ne_assign {step : Build Node} {name target : String} {params : Heading}
    {returns : Option DataType} {mark : Nat} {value : Node} :
    (located mark (enterDefine name params) >>= fun _ => step >>= fun n =>
      located mark (define name params returns n)) w ≠ .ok (.assign target value) w' := by
  intro h
  obtain ⟨body, w₁, captured, link, -, -, -, -, hs⟩ := definition_steps h
  cases hs

/-- Only an assignment is built as one, and its name was free or that of
a variable. -/
theorem entry_of_assign {sentence : Sentence} {name : String} {value : Node}
    (h : statement catalog sentence w = .ok (.assign name value) w') :
    ∀ symbol ∈ catalog.find? name, symbol.kind = .catalog := by
  rcases statement_cases h with ⟨e, node, -, hs⟩ | ⟨e, node, target, w₁, -, hs⟩ |
    ⟨e, mark, target, params, returns, hs⟩ | ⟨user, hs, -⟩
  · cases hs
  · obtain ⟨heq, hentry⟩ := assign_eq_ok hs
    cases heq
    exact hentry
  · exact absurd hs define_ne_assign
  · cases hs

/-- What the catalog refuses of a statement that was built. -/
theorem register_refuses_iff {sentence : Sentence}
    (h : statement catalog sentence w = .ok st w') :
    (∃ e, catalog.register st = .error e) ↔ catalog.Conflicts st := by
  cases st with
  | expression value => simp [Catalog.register, Catalog.Conflicts]
  | define name link body => exact Catalog.addOverload_refuses_iff
  | typeDef user => exact Catalog.addUserType_refuses_iff
  | assign name value =>
      obtain ⟨c', hc'⟩ := Catalog.addVariable_ok value.dataType (entry_of_assign h)
      simp [Catalog.register, Catalog.Conflicts, hc']

end Build

namespace SessionStep

open Session

variable {s s' : Session} {text source : List Char} {offset : Nat}

/-- Code passes the check of types unchanged. -/
theorem emit_eq_ok {st : Statement} {start : Location} {code : List UInt8}
    (h : emit st start = .ok code) : st.emit = .ok code := by
  unfold emit at h
  split at h
  · cases h
  · exact mapError_eq_ok.mp h

/-- A prepared statement was read and built, and code was made of it. -/
theorem prepare_eq_ok {catalog : Catalog} {context context' : Context} {st : Statement}
    {code : List UInt8}
    (h : prepare catalog context text offset source = (.ok (st, code), context')) :
    ∃ sentence w, Sentence.read text = .ok sentence ∧
      Build.statement catalog sentence { context } = .ok st w ∧ st.emit = .ok code := by
  unfold prepare at h
  dsimp only at h
  cases hread : Sentence.read text with
  | error e =>
      rw [hread] at h
      cases h
  | ok sentence =>
      rw [hread] at h
      dsimp only at h
      cases hbuild : Build.statement catalog sentence { context } with
      | error f w =>
          rw [hbuild] at h
          cases h
      | ok built w =>
          rw [hbuild] at h
          dsimp only at h
          split at h
          · cases h
          · split at h
            · cases h
            · rename_i hemit
              cases h
              exact ⟨sentence, w, rfl, hbuild, emit_eq_ok hemit⟩

/-- What is left alone while a prepared statement is run. -/
theorem ran_leaves (s : Session) (code : List UInt8) {evaluator : Evaluator}
    (hexecute : s.options.execute = true) (hevaluator : s.evaluator = some evaluator) :
    s.evaluate code = (evaluator s.runs code).map some ∧ (s.ran code).runs = s.runs + 1 ∧
      (s.ran code).output = s.output := by
  unfold evaluate ran
  rw [hexecute, hevaluator]
  exact ⟨rfl, rfl, rfl⟩

/-- Evaluator and catalog agree on what happened, conflicts apart. A
statement that cannot be prepared is not run, and one that is run is run
once. If running it gives a value and nothing conflicts with it, then it
is entered into the catalog and put out with that value. A statement
that the catalog refuses has been run all the same, and exactly those
are refused that conflict with an entry. -/
theorem executed_is_registered_unless_conflict (s : Session) (evaluator : Evaluator)
    (text source : List Char) (offset : Nat) (context : Context)
    (hexecute : s.options.execute = true) (hevaluator : s.evaluator = some evaluator) :
    (∀ f, prepare s.catalog s.context text offset source = (.error f, context) →
      ∃ s', statement text offset source s = .error f s' ∧
        s'.runs = s.runs ∧ s'.catalog = s.catalog ∧ s'.output = s.output) ∧
    (∀ st code, prepare s.catalog s.context text offset source = (.ok (st, code), context) →
      ∃ s', s'.runs = s.runs + 1 ∧ s'.output = s.output ∧
        (∀ e, evaluator s.runs code = .error e →
          statement text offset source s = .error e.failure s' ∧ s'.catalog = s.catalog) ∧
        (∀ v, evaluator s.runs code = .ok v → ¬ s.catalog.Conflicts st →
          s.catalog.register st = .ok s'.catalog ∧
          statement text offset source s = .ok ⟨text, offset, st.dataType, code, some v⟩ s' ∧
          piece source ⟨.statement text, offset⟩ s = .ok ()
            { s' with output := s.output ++ [⟨text, offset, st.dataType, code, some v⟩] }) ∧
        (∀ v, evaluator s.runs code = .ok v → s.catalog.Conflicts st →
          (∃ e, s.catalog.register st = .error e) ∧
          (∃ f, statement text offset source s = .error f s') ∧ s'.catalog = s.catalog)) := by
  have hstatement := statement_eq text offset source s
  refine ⟨fun f hprepare => ?_, fun st code hprepare => ?_⟩
  · rw [hprepare] at hstatement
    exact ⟨_, hstatement, rfl, rfl, rfl⟩
  · obtain ⟨sentence, w, -, hbuild, -⟩ := prepare_eq_ok hprepare
    have hrefuses := Build.register_refuses_iff hbuild
    obtain ⟨hvalue, hruns, houtput⟩ := ran_leaves
      (s.showing context (s.preview text st code)) code hexecute hevaluator
    rw [hprepare] at hstatement
    dsimp only at hstatement
    rw [complete_eq, hvalue] at hstatement
    -- the code is run as the session stands, whatever has been shown
    have hrun : (s.showing context (s.preview text st code)).runs = s.runs := rfl
    have hcatalog : (s.showing context (s.preview text st code)).catalog = s.catalog := rfl
    rw [hrun, hcatalog] at hstatement
    -- the code fails, or it gives a value that the catalog takes or refuses
    cases hresult : evaluator s.runs code with
    | error e =>
        rw [hresult] at hstatement
        refine ⟨_, hruns, houtput, ?_, fun _ h => (nomatch h), fun _ h => (nomatch h)⟩
        rintro _ ⟨⟩
        exact ⟨hstatement, catalog_ran _ code⟩
    | ok v =>
        rw [hresult] at hstatement
        dsimp only [Except.map] at hstatement
        cases hregister : s.catalog.register st with
        | error e =>
            rw [hregister] at hstatement hrefuses
            refine ⟨_, hruns, houtput, fun _ h => (nomatch h), ?_, ?_⟩
            · exact fun _ _ hfree => absurd (hrefuses.mp ⟨e, rfl⟩) hfree
            · exact fun _ _ _ => ⟨⟨e, rfl⟩, ⟨_, hstatement⟩, catalog_ran _ code⟩
        | ok catalog =>
            rw [hregister] at hstatement hrefuses
            refine ⟨{ (s.showing context (s.preview text st code)).ran code with catalog },
              hruns, houtput, fun _ h => (nomatch h), ?_, ?_⟩
            · rintro _ ⟨⟩ -
              refine ⟨rfl, hstatement, ?_⟩
              rw [← show _ = s.output from houtput]
              exact bind_of_ok hstatement
            · intro _ _ hconflicts
              obtain ⟨e, he⟩ := hrefuses.mpr hconflicts
              cases he

/-- A type under a name that another type has. -/
def takenType : List Char := "type t(b: text)".toList

/-- A session that runs code, with a type `t`, and an evaluator that
gives nothing for every definition. -/
def withTakenType : Session :=
  { options := { execute := true }
    catalog := { entries := [{ name := "t", kind := .userType, type := .user ⟨"t", [], none⟩ }] }
    evaluator := some fun _ _ => .ok .void }

/-- The second type of a name is run, and then refused. -/
theorem executed_is_registered_unless_conflict_taken_type :
    withTakenType.options.execute = true ∧
    ∃ f s', statement takenType 0 takenType withTakenType = .error f s' ∧
      s'.runs = withTakenType.runs + 1 ∧ s'.catalog = withTakenType.catalog ∧
      s'.output = withTakenType.output := by
  have hprepared : (match prepare withTakenType.catalog withTakenType.context takenType 0
      takenType with
      | (.ok (.typeDef user, _), _) => user.name == "t"
      | _ => false) = true := by decide +kernel
  generalize hprepare : prepare withTakenType.catalog withTakenType.context takenType 0 takenType
    = prepared at hprepared
  split at hprepared
  · rename_i user code context
    have hagree := executed_is_registered_unless_conflict withTakenType (fun _ _ => .ok .void)
      takenType takenType 0 context rfl rfl
    obtain ⟨s', hruns, houtput, -, -, hrefused⟩ := hagree.2 (.typeDef user) code hprepare
    have hconflicts : withTakenType.catalog.Conflicts (.typeDef user) := by
      show ∃ symbol, withTakenType.catalog.find? user.name = some symbol
      rw [beq_iff_eq.mp hprepared]
      exact ⟨_, rfl⟩
    obtain ⟨-, ⟨f, hfails⟩, hcatalog⟩ := hrefused .void rfl hconflicts
    exact ⟨rfl, f, s', hfails, hruns, hcatalog, houtput⟩
  · cases hprepared

end SessionStep

end RelQuery
