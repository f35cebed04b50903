/-
What a single step of building may raise.

A step raises its fault without a mark; the walk marks it. Nearly all
causes are mistakes of the program. The others, defects of the compiler,
need something to be wrong beforehand: a level or a field list that is
closed but not open, a symbol for a slot that is not there, an entry of
the catalog that is a type without components or returns a placeholder
(`Workspace.IsOpen`, `Workspace.IsProper`). `Raises I D` says this of a
step: its faults have no mark, and from a workspace with `I` a defect
has a cause in `D`.

One defect needs nothing of the kind. The builtins are declared with
placeholders that stand for the type of an argument, and one of them
can be called without any (`Builtin.resolve_eq_error`).
-/
import RelQuery.Proofs.Build.Descent
import RelQuery.Proofs.Grammar.Following

namespace RelQuery

open Workspace

-- ======================================================= resolution

/-- Headings that do not merge are a mistake. -/
theorem mergeHeadings_eq_error {name : String} {policy : Merge} {first second : Heading}
    {others : List Heading} {e : TypeError}
    (h : mergeHeadings name policy first second others = .error e) : e.isInternal = false := by
  have hduplicate {α : Type} {r : Except HeadingError α} (h : r.mapError
      (fun e => TypeError.duplicateColumn name e.column) = .error e) : e.isInternal = false := by
    cases r with
    | ok a => cases h
    | error e' =>
        cases h
        rfl
  unfold mergeHeadings at h
  dsimp only at h
  split at h
  · exact hduplicate h
  · exact hduplicate h
  · exact hduplicate h
  all_goals
    split at h
    · cases h
      rfl
    · cases h

namespace Symbol

/-- The type of a call is missing only if there is no operand to take it
from. -/
theorem resultType_eq_error {s : Symbol} {call : Signature} {actuals : List DataType}
    {e : TypeError} (h : s.resultType call actuals = .error e) (he : e.isInternal = true) :
    e = .unresolvedReturn s.name ∧ actuals = [] ∧ call.returns.isPlaceholder = true := by
  unfold resultType at h
  split at h
  · rename_i policy first second others _ _
    cases hmerge : mergeHeadings s.name policy first second others with
    | ok merged =>
        rw [hmerge] at h
        cases h
    | error e' =>
        rw [hmerge] at h
        cases h
        rw [mergeHeadings_eq_error hmerge] at he
        cases he
  · unfold resolveReturn at h
    split at h
    · rename_i hplaceholder
      cases actuals with
      | cons first rest => cases h
      | nil =>
          cases h
          exact ⟨rfl, rfl, hplaceholder⟩
    · cases h

/-- A call that fits no link is a mistake of the program. -/
theorem choose_eq_error {s : Symbol} {first : Signature} {actuals : List DataType} {e : TypeError}
    (h : s.choose first actuals = .error e) : e.isInternal = false := by
  unfold choose at h
  split at h
  · cases h
  · split at h
    · cases h
    · cases h
      rfl

/-- Without arguments the link is one that takes none. -/
theorem choose_nil {s : Symbol} {first call : Signature} (h : s.choose first [] = .ok call) :
    call ∈ s.links ∧ call.acceptsCall [] = true := by
  have hfound : s.links.find? (·.acceptsCall []) = some call := by
    unfold choose at h
    rw [if_neg (by simp [comparesEqualTypes])] at h
    split at h
    · cases h
      assumption
    · cases h
  exact ⟨List.mem_of_find?_eq_some hfound, by simpa using List.find?_some hfound⟩

/-- A call that does not resolve is a mistake, unless it has no
arguments to take its type from. -/
theorem resolve_eq_error {s : Symbol} {actuals : List DataType} {e : TypeError}
    (h : s.resolve actuals = .error e) (he : e.isInternal = true) :
    e = .unresolvedReturn s.name ∧ actuals = [] ∧
      ∃ link ∈ s.links, link.acceptsCall [] = true ∧ link.returns.isPlaceholder = true := by
  -- the errors come in the order of the steps; only the last of them can be a
  -- defect
  unfold resolve at h
  split at h
  · cases h
    cases he
  rename_i first rest hlinks
  split at h
  · cases h
    cases he
  cases hchoose : s.choose first actuals with
  | error e' =>
      rw [hchoose] at h
      cases h
      rw [choose_eq_error hchoose] at he
      cases he
  | ok call =>
      rw [hchoose] at h
      cases htype : s.resultType call actuals with
      | ok type =>
          simp only [htype, bind, Except.bind] at h
          cases h
      | error e' =>
          simp only [htype, bind, Except.bind] at h
          cases h
          obtain ⟨rfl, rfl, hplaceholder⟩ := resultType_eq_error htype he
          obtain ⟨hlink, haccepts⟩ := choose_nil hchoose
          exact ⟨rfl, rfl, call, hlink, haccepts, hplaceholder⟩

end Symbol

/-- Of the builtins just one can be called without arguments and still
returns the type of one. -/
theorem Builtin.resolve_eq_error {name : String} {s : Symbol} (hs : Builtin.find? name = some s)
    {actuals : List DataType} {e : TypeError} (h : s.resolve actuals = .error e)
    (he : e.isInternal = true) :
    e = .unresolvedReturn "union_all" ∧ name = "union_all" ∧ actuals = [] := by
  have htable : ∀ s ∈ Builtin.symbols, (∃ link ∈ s.links, link.acceptsCall [] = true ∧
      link.returns.isPlaceholder = true) → s.name = "union_all" := by decide +kernel
  obtain ⟨rfl, rfl, hlink⟩ := Symbol.resolve_eq_error h he
  have hname : s.name = name := by simpa using List.find?_some hs
  have hunion := htable s (List.mem_of_find?_eq_some hs) hlink
  exact ⟨by rw [hunion], by rw [← hname, hunion], rfl⟩

theorem Builtin.precedence?_isSome {op : String} (hop : isInfix op = true) :
    (Builtin.precedence? op).isSome = true :=
  (show ∀ op ∈ Reading.signOperators ++ Reading.wordOperators,
    (Builtin.precedence? op).isSome = true by decide +kernel) op (Reading.mem_of_isInfix hop)

-- ================================================== sound beginnings

/-- An entry that is what its kind says: a type is a user type, and no
overload returns a placeholder. -/
structure Symbol.IsSound (s : Symbol) : Prop where
  user : s.kind = .userType → ∃ user, s.type = .user user
  returns : ∀ link ∈ s.links, link.returns.isPlaceholder = false

namespace Workspace

/-- The entries of the catalog are sound, and every symbol of a block
stands for a slot that is there. -/
structure IsProper (catalog : Catalog) (w : Workspace) : Prop where
  entries : ∀ symbol ∈ catalog.entries, symbol.IsSound
  slots : ∀ scope ∈ w.context.scopes.all, ∀ symbol ∈ scope.symbols, ∀ slot,
    symbol.kind = .bound slot → slot < w.locals.length

/-- A level is open. -/
structure IsOpen (w : Workspace) : Prop where
  scopes : w.context.scopes.outer ≠ []
  counters : w.context.counters.entries ≠ []

variable {w w' : Workspace} {slots : List Nat}

/-- A level that was opened is open. -/
theorem Widens.isOpen {scope : Scope} {mode : FoldMode}
    (h : (w.entered scope mode).Widens w' slots) : w'.IsOpen where
  scopes := by
    have houter := (Build.outer_of_entered h).length_eq
    intro hnil
    rw [hnil] at houter
    cases houter
  counters := Build.entries_of_entered h

end Workspace

namespace Build

variable {α β : Type} {w w' : Workspace} {f : BuildFault}

/-- The faults of a step have no mark, and one that is a defect of the
compiler has a cause in `D`, if the step began in a workspace with `I`. -/
def Raises (I : Workspace → Prop) (D : BuildError → Prop) (step : Build α) : Prop :=
  ∀ w f w', step w = .error f w' → f.mark = none ∧ (I w → f.error.kind = .internal → D f.error)

namespace Raises

variable {I : Workspace → Prop} {D : BuildError → Prop} {step : Build α} {g : α → Build β}

/-- A step that cannot fail raises nothing. -/
theorem total (h : ∀ w, ∃ a w', step w = .ok a w') : Raises I D step := by
  intro w f w' hf
  obtain ⟨a, w₁, hok⟩ := h w
  rw [hok] at hf
  cases hf

theorem pure (a : α) : Raises I D (pure a) :=
  total fun _ => ⟨_, _, rfl⟩

/-- A fault is accounted for unless it is a defect of another kind. -/
theorem fail {e : BuildError} (h : e.kind = .internal → D e) : Raises I D (fail e : Build α) := by
  rintro w _ _ ⟨⟩
  exact ⟨rfl, fun _ => h⟩

theorem mistake {e : BuildError} (h : e.kind = .semantic) : Raises I D (Build.fail e : Build α) :=
  fail fun hdefect => absurd (h.symm.trans hdefect) (by decide)

/-- What stands after a failure is not run. -/
theorem mistake_bind {e : BuildError} (h : e.kind = .semantic) :
    Raises I D (Build.fail e >>= g) := by
  intro w f w' hf
  obtain hfail | ⟨a, w₁, hfail, -⟩ := bind_eq_error.mp hf
  · exact mistake h w f w' hfail
  · exact absurd hfail fail_ne_ok

/-- An outcome is passed on, so its errors are those to look at. -/
theorem ofExcept {ε : Type} {wrap : ε → BuildError} {r : Except ε α}
    (h : ∀ e, r = .error e → (wrap e).kind = .internal → D (wrap e)) :
    Raises I D (ofExcept wrap r) := by
  cases r with
  | ok a => exact pure a
  | error e => exact fail (h e rfl)

theorem ofMistakes {ε : Type} {wrap : ε → BuildError} {r : Except ε α}
    (h : ∀ e, r = .error e → (wrap e).kind = .semantic) : Raises I D (Build.ofExcept wrap r) :=
  ofExcept fun e he hdefect => absurd ((h e he).symm.trans hdefect) (by decide)

/-- Where the first step has led does not matter, if nothing is asked of
the workspace there. -/
theorem bind (h : Raises I D step) (hg : ∀ a, Raises (fun _ => True) D (g a)) :
    Raises I D (step >>= g) := by
  intro w f w' hf
  obtain hstep | ⟨a, w₁, -, hga⟩ := bind_eq_error.mp hf
  · exact h w f w' hstep
  · obtain ⟨hmark, hcause⟩ := hg a w₁ f w' hga
    exact ⟨hmark, fun _ => hcause trivial⟩

theorem map (h : Raises I D step) (k : α → β) : Raises I D (step >>= fun a => Pure.pure (k a)) :=
  h.bind fun _ => pure _

theorem get_bind {g : Workspace → Build β} (h : ∀ w, Raises I D (g w)) :
    Raises I D (get >>= g) :=
  fun w f w' hf => h w w f w' hf

theorem discard (h : Raises I D step) : Raises I D (discard step) :=
  fun w f w' hf => h w f w' (discard_eq_error hf)

/-- More kinds of defects may be allowed. -/
theorem mono {D' : BuildError → Prop} (h : Raises I D step) (hD : ∀ e, D e → D' e) :
    Raises I D' step := by
  intro w f w' hf
  obtain ⟨hmark, hcause⟩ := h w f w' hf
  exact ⟨hmark, fun hw hkind => hD _ (hcause hw hkind)⟩

end Raises

section

variable {I : Workspace → Prop} {D : BuildError → Prop}

-- ============================================================ calls

/-- Of type errors only one is a defect. -/
theorem isInternal_of_kind {e : TypeError} (h : (BuildError.type e).kind = .internal) :
    e.isInternal = true := by
  by_contra hmistake
  simp [BuildError.kind, hmistake] at h

/-- Slots are refused to the program, not lost. -/
theorem allocate_raises (name : String) (n : Nat) : Raises I D (allocate name n) := by
  refine .get_bind fun w => .bind (.ofMistakes fun e he => ?_) fun _ => ?_
  rotate_left
  · exact .total fun _ => ⟨_, _, rfl⟩
  unfold Counters.allocate at he
  split at he
  · cases he
  · cases he
    rfl

/-- Windows are refused to the program, not lost. -/
theorem markWindow_raises (name : String) : Raises I D (markWindow name) := by
  refine .get_bind fun w => .bind (.ofMistakes fun e he => ?_) fun _ => ?_
  rotate_left
  · exact .total fun _ => ⟨_, _, rfl⟩
  unfold Counters.markWindow at he
  split at he
  · cases he
  · cases he
    rfl

/-- Counters are changed or the program is refused, whatever the workspace
is like. -/
theorem raises_stepwise : Stepwise fun step => ∀ I, Raises I D step where
  pure a _ := .pure a
  bind h hf I := (h I).bind fun a => hf a _
  markWindow name _ := markWindow_raises name
  allocate name n _ := allocate_raises name n

/-- A builtin is refused for what the program does with it. -/
theorem callBuiltin_raises (link : Signature) (args : List Node) (type : DataType) :
    Raises I D (callBuiltin link args type) := by
  have hcall : Raises I D (noteWindow link >>= fun _ => allocateFor link >>= fun slot =>
      pure (Node.call link args type slot)) :=
    (raises_stepwise.noteWindow link I).bind fun _ => (raises_stepwise.allocateFor link _).map _
  rw [callBuiltin_eq]
  split
  · exact .mistake rfl
  · exact .pure _
  · exact .pure _
  · exact hcall
  · exact hcall

/-- Components that do not fit are the program's. -/
theorem select_raises (user : UserType) (args : List Node) : Raises I D (select user args) := by
  unfold select
  split
  · exact .mistake rfl
  · split
    · exact .mistake rfl
    · exact .pure _

/-- A call of an entry is at most a mistake, if the entry is sound. -/
theorem callEntry_raises (symbol : Symbol) (name : String) (args : List Node) :
    Raises I (fun _ => ¬ symbol.IsSound) (callEntry symbol name args) := by
  unfold callEntry
  split
  · refine .bind (.ofExcept fun e he hkind hsound => ?_) fun _ =>
      (raises_stepwise.allocateFor _ _).map _
    obtain ⟨-, -, link, hlink, -, hplaceholder⟩ :=
      Symbol.resolve_eq_error he (isInternal_of_kind hkind)
    rw [hsound.returns link hlink] at hplaceholder
    cases hplaceholder
  · rename_i hkind
    split
    · exact select_raises _ args
    · rename_i hother
      refine .fail fun _ hsound => ?_
      obtain ⟨user, huser⟩ := hsound.user hkind
      exact hother user huser
  · exact .mistake rfl

/-- The cause of a call without arguments to take its type from. -/
def IsEmptyUnion (name : String) (args : List Node) (e : BuildError) : Prop :=
  e = .type (.unresolvedReturn "union_all") ∧ name = "union_all" ∧ args = []

/-- A call of `union_all` without arguments has no type to return, and no
other call is a defect. -/
theorem call_raises (catalog : Catalog) (name : String) (args : List Node) :
    Raises (IsProper catalog) (IsEmptyUnion name args) (call catalog name args) := by
  unfold call
  split
  · rename_i builtin hbuiltin
    refine .bind (.ofExcept fun e he hkind => ?_) fun _ => callBuiltin_raises _ args _
    obtain ⟨rfl, hname, hargs⟩ := Builtin.resolve_eq_error hbuiltin he (isInternal_of_kind hkind)
    exact ⟨rfl, hname, List.map_eq_nil_iff.mp hargs⟩
  · split
    · rename_i symbol hsymbol
      intro w f w' hf
      obtain ⟨hmark, hcause⟩ := callEntry_raises symbol name args w f w' hf
      refine ⟨hmark, fun hw hkind => absurd ?_ (hcause hw hkind)⟩
      exact hw.entries symbol (List.mem_of_find?_eq_some hsymbol)
    · refine .get_bind fun w => ?_
      split
      · exact .mistake rfl
      · exact .mistake rfl

/-- A call with arguments is at most a mistake. -/
theorem call_raises_cons (catalog : Catalog) (name : String) (arg : Node) (args : List Node) :
    Raises (IsProper catalog) D (call catalog name (arg :: args)) :=
  (call_raises catalog name (arg :: args)).mono fun _ h => absurd h.2.2 (List.cons_ne_nil _ _)

/-- The minus has an operand. -/
theorem negate_raises (catalog : Catalog) (arg : Node) :
    Raises (IsProper catalog) D (negate catalog arg) := by
  unfold negate
  split
  · exact .pure _
  · exact call_raises_cons catalog "neg" _ []

/-- An operator that was read is a builtin and has two operands. -/
theorem binary_raises (catalog : Catalog) {op : String} (hop : isInfix op = true)
    (lhs rhs : Node) : Raises (IsProper catalog) D (binary catalog op lhs rhs) := by
  unfold binary
  rw [if_neg (by simp [Option.isSome_iff_ne_none.mp (Builtin.precedence?_isSome hop)])]
  exact call_raises_cons catalog op lhs [rhs]

/-- A fold resolves its operator with two operands. -/
theorem fold_raises (op : String) (arg : Node) : Raises I D (fold op arg) := by
  unfold fold
  split
  · exact .mistake rfl
  · refine .bind (.ofExcept fun e he hkind => ?_) fun _ => (allocate_raises _ _).map _
    obtain ⟨-, hnone, -⟩ := Symbol.resolve_eq_error he (isInternal_of_kind hkind)
    cases hnone

/-- A selection that finds nothing is the program's. -/
theorem member_raises (base : Node) (name : String) : Raises I D (member base name) := by
  unfold member
  split
  · split
    · exact .pure _
    · exact .mistake rfl
  · split
    · exact .pure _
    · exact .mistake rfl
  · exact .mistake rfl

-- ============================================================ names

/-- A use of a slot that is there. -/
theorem useLocal_raises (name : String) (slot : Nat) :
    Raises (fun w => slot < w.locals.length) D (useLocal name slot) := by
  intro w f w' hf
  rw [useLocal, get_bind_apply] at hf
  cases hslot : w.locals[slot]? with
  | none =>
      rw [hslot] at hf
      cases hf
      exact ⟨rfl, fun hlt => absurd hslot (by simp [hlt])⟩
  | some bound =>
      rw [hslot] at hf
      have hreads : Raises (fun w => slot < w.locals.length) D (onScopes fun s =>
          ((), bound.reads.foldl (fun s r => s.record r.column r.level) s)) :=
        .total fun _ => ⟨_, _, rfl⟩
      exact hreads.bind (fun _ => (raises_stepwise.relocate bound.value _).map _) w f w' hf

/-- A bound symbol is loaded from its slot, which is there. -/
theorem useSymbol_raises (symbol : Symbol) :
    Raises (fun w => ∀ slot, symbol.kind = .bound slot → slot < w.locals.length) D
      (useSymbol symbol) := by
  unfold useSymbol
  split
  · exact .pure _
  · exact .pure _
  · exact .pure _
  · exact .pure _
  · rename_i slot hslot
    intro w f w' hf
    obtain ⟨hmark, hcause⟩ := useLocal_raises symbol.name slot w f w' hf
    exact ⟨hmark, fun hw => hcause (hw slot hslot)⟩
  · exact .mistake rfl

/-- A name that is not in the catalog is the program's. -/
theorem useGlobal_raises (catalog : Catalog) (name : String) :
    Raises I D (useGlobal catalog name) := by
  unfold useGlobal
  split
  · split
    · exact .pure _
    · exact .pure _
    · exact .mistake rfl
  · split
    · exact .mistake rfl
    · exact .mistake rfl

/-- A name that is found is a symbol of an open scope. -/
theorem useName_raises (catalog : Catalog) (name : String) :
    Raises (IsProper catalog) D (useName catalog name) := by
  intro w f w' hf
  obtain hresolve | ⟨found, w₁, hresolve, hf⟩ := bind_eq_error.mp hf
  · cases hresolve
  cases found with
  | none =>
      have hraises : Raises (fun _ => True) D (useGlobal catalog name) := useGlobal_raises _ _
      obtain ⟨hmark, hcause⟩ := hraises w₁ f w' hf
      exact ⟨hmark, fun _ => hcause trivial⟩
  | some symbol =>
      obtain ⟨hmark, hcause⟩ := useSymbol_raises symbol w₁ f w' hf
      -- a symbol that was found is one of an open scope, so its slot is there
      refine ⟨hmark, fun hw => hcause fun slot hslot => ?_⟩
      have hturns : Turns [] (resolve name) fun _ => [] := .resolve name
      obtain ⟨slots, hgrows, -, -⟩ := hturns w _ w₁ hresolve
      have hfind : w.context.scopes.find? name = some symbol := by
        have hfound : (w.context.scopes.resolve name).1 = some symbol := by
          injection hresolve
        unfold Scopes.resolve at hfound
        split at hfound
        · cases hfound
        · cases hfound
          assumption
      obtain ⟨scope, hscope, hget⟩ := List.exists_of_findSome?_eq_some hfind
      rw [hgrows.locals]
      exact hw.slots scope hscope symbol (List.mem_of_find?_eq_some hget) slot hslot

/-- A row that is not there is the program's. -/
theorem currentRow_raises : Raises I D currentRow := by
  have hreads (names : List String) {J : Workspace → Prop} :
      Raises J D (forIn names PUnit.unit fun name _ =>
        discard (resolve name) >>= fun _ => pure (ForInStep.yield PUnit.unit)) := by
    induction names generalizing J with
    | nil => exact .pure _
    | cons name names ih =>
        rw [List.forIn_cons]
        refine .bind ?_ fun next => ?_
        · exact .total fun _ => ⟨_, _, rfl⟩
        · cases next with
          | done u => exact .pure _
          | yield u => exact ih
  refine .get_bind fun w => ?_
  split
  · exact .mistake rfl
  · exact (hreads _).bind fun _ => .pure _

-- ================================================== rows and tables

theorem row_raises (fields : List (String × Node)) : Raises I D (row fields) :=
  .map (.ofMistakes fun _ _ => rfl) _

/-- A row that does not fit the first one is the program's. -/
theorem rowsLike_eq_error {first : Heading} {rows : List (List (String × Node))} {e : BuildError}
    (h : rowsLike first rows = .error e) : e.kind = .semantic := by
  induction rows with
  | nil => cases h
  | cons fields rest ih =>
      unfold rowsLike at h
      cases hheading : rowHeading [] fields with
      | error e' =>
          rw [hheading] at h
          cases h
          rfl
      | ok heading =>
          rw [hheading] at h
          simp only [Except.mapError, bind, Except.bind, pure, Except.pure] at h
          split at h
          · cases hrest : rowsLike first rest with
            | ok nodes =>
                rw [hrest] at h
                cases h
            | error e' =>
                rw [hrest] at h
                cases h
                exact ih hrest
          · cases h
            rfl

/-- Rows are compared with the first one. -/
theorem table_raises (rows : List (List (String × Node))) : Raises I D (table rows) := by
  cases rows with
  | nil => exact .pure _
  | cons fields rest =>
      refine .bind (.ofMistakes fun _ _ => rfl) fun _ => .map (.ofExcept fun e he hkind => ?_) _
      rw [id, rowsLike_eq_error he] at hkind
      cases hkind

-- =========================================================== levels

/-- An open level can be closed. -/
theorem leave_raises : Raises IsOpen D leave := by
  intro w f w' hf
  obtain ⟨⟨⟨current, outer, trackers⟩, ⟨root, entries⟩⟩, locals, pending, frames⟩ := w
  cases outer with
  | nil =>
      cases hf
      exact ⟨rfl, fun hopen => absurd rfl hopen.scopes⟩
  | cons parent rest =>
      cases entries with
      | nil =>
          cases hf
          exact ⟨rfl, fun hopen => absurd rfl hopen.counters⟩
      | cons entry entries => cases hf

/-- The check comes first, and opening a level cannot fail. -/
theorem enterRestrict_raises (base : Node) : Raises I D (enterRestrict base) := by
  unfold enterRestrict
  split
  · exact .total fun _ => ⟨_, _, rfl⟩
  · exact .mistake rfl

/-- The level of the restriction is there to be closed. -/
theorem restrict_raises (base predicate : Node) : Raises IsOpen D (restrict base predicate) := by
  refine leave_raises.bind fun captured => ?_
  dsimp only
  split
  · exact .mistake_bind rfl
  · generalize Builtin.find? "restrict" = found
    cases found with
    | none => exact .total fun _ => ⟨_, _, rfl⟩
    | some symbol =>
        refine .map (.discard (.ofExcept fun e he hkind => ?_)) _
        obtain ⟨-, hnone, -⟩ := Symbol.resolve_eq_error he (isInternal_of_kind hkind)
        cases hnone

/-- A name that is taken is the program's. -/
theorem bindLocal_raises (name : String) (value : Node) : Raises I D (bindLocal name value) := by
  refine .get_bind fun w => .bind (.total fun _ => ⟨_, _, rfl⟩) fun reads => ?_
  refine .bind (.total fun _ => ⟨_, _, rfl⟩) fun _ => .get_bind fun w => ?_
  refine .bind (.ofMistakes fun e he => ?_) fun _ => .total fun _ => ⟨_, _, rfl⟩
  unfold Scopes.add at he
  split at he
  · cases he
    rfl
  · cases he

theorem block_raises (first : Nat) (body : Node) : Raises IsOpen D (block first body) :=
  leave_raises.discard.bind fun _ => .total fun _ => ⟨_, _, rfl⟩

-- ====================================================== field lists

/-- A base without a heading is the program's. -/
theorem chainFields_raises (base : Node) (allBut : Bool) :
    Raises I D (chainFields base allBut) := by
  unfold chainFields
  split
  · exact .mistake_bind rfl
  · exact .total fun _ => ⟨_, _, rfl⟩

/-- A base without a heading is the program's. -/
theorem enterFields_raises (base : Node) (allBut : Bool) :
    Raises I D (enterFields base allBut) := by
  unfold enterFields
  split
  · exact .mistake_bind rfl
  · exact .total fun _ => ⟨_, _, rfl⟩

/-- A key that is not found is the program's. -/
theorem orderKey_raises (name : String) (descending grouped : Bool) :
    Raises I D (orderKey name descending grouped) := by
  refine .bind (.total fun _ => ⟨_, _, rfl⟩) fun found => ?_
  cases found with
  | none => exact .mistake rfl
  | some symbol =>
      dsimp only
      split
      · exact .pure _
      · exact .mistake rfl

/-- The innermost list is there if one is open. -/
theorem frame_raises : Raises (fun w => w.frames ≠ []) D frame := by
  intro w f w' hf
  rw [frame, get_bind_apply] at hf
  cases hframes : w.frames with
  | nil =>
      rw [hframes] at hf
      cases hf
      exact ⟨rfl, fun h => absurd hframes h⟩
  | cons g rest =>
      rw [hframes] at hf
      cases hf

theorem beginField_raises : Raises (fun w => w.frames ≠ []) D beginField :=
  frame_raises.bind fun _ => .total fun _ => ⟨_, _, rfl⟩

/-- The level of the field is there to be closed. -/
theorem endField_raises (name : String) (value : Node) :
    Raises IsOpen D (endField name value) := by
  intro w f w' hf
  obtain hcounter | ⟨c, w₁, hcounter, hf⟩ := bind_eq_error.mp hf
  · cases hcounter
  · cases hcounter
    exact leave_raises.map _ w f w' hf

/-- Columns that are not there are the program's. -/
theorem fieldItems_raises (g : FieldFrame) (entries : List (FieldSpec Segment)) :
    Raises I D (fieldItems g entries) := by
  unfold fieldItems
  split
  · exact .map (.ofMistakes fun _ _ => rfl) _
  · exact .pure _

/-- The level of the list is there to be closed. -/
theorem closeFields_raises (keepOpen : Bool) (type : DataType) :
    Raises IsOpen D (closeFields keepOpen type) := by
  have hreenter : Raises IsOpen D (ofContext (·.reenter type)) := by
    intro w f w' hf
    obtain ⟨⟨⟨current, outer, trackers⟩, counters⟩, locals, pending, frames⟩ := w
    cases outer with
    | nil =>
        cases hf
        exact ⟨rfl, fun hopen => absurd rfl hopen.scopes⟩
    | cons parent rest => cases hf
  cases keepOpen with
  | true =>
      intro w f w' hf
      obtain hcounter | ⟨c, w₁, hcounter, hf⟩ := bind_eq_error.mp hf
      · cases hcounter
      · cases hcounter
        exact hreenter.discard.map _ w f w' hf
  | false => exact leave_raises.map _

/-- The list and its level are there to be closed; what its columns are
named is up to the program. -/
theorem finishFields_raises (base : Node) (order : List Segment)
    (entries : List (FieldSpec Segment)) (keepOpen : Bool) :
    Raises (fun w => w.IsOpen ∧ w.frames ≠ []) D (finishFields base order entries keepOpen) := by
  intro w f w' hf
  obtain hframe | ⟨g, w₁, hframe, hafter⟩ := bind_eq_error.mp hf
  · obtain ⟨hmark, hcause⟩ := frame_raises w f w' hframe
    exact ⟨hmark, fun hw => hcause hw.2⟩
  obtain htail | ⟨u, w₂, htail, hclosing⟩ := bind_eq_error.mp hafter
  · cases htail
  have hopen (hw : w.IsOpen) : w₂.IsOpen := by
    obtain ⟨rest, -, rfl⟩ := frame_eq_ok hframe
    cases htail
    exact ⟨hw.scopes, hw.counters⟩
  -- the checks of the items come before the level is closed, and change nothing
  obtain hitems | ⟨items, w₃, hitems, houtput⟩ := bind_eq_error.mp hclosing
  · obtain ⟨hmark, hcause⟩ := fieldItems_raises (I := fun _ => True) g entries w₂ f w' hitems
    exact ⟨hmark, fun _ => hcause trivial⟩
  obtain ⟨rfl, -⟩ := fieldItems_looks g entries w₂ items w₃ hitems
  obtain hheading | ⟨output, w₄, hheading, hclose⟩ := bind_eq_error.mp houtput
  · have hraises : Raises (fun _ => True) D (ofExcept .heading
        (outputHeading (g.base.heading?.getD []) [] items)) := .ofMistakes fun _ _ => rfl
    obtain ⟨hmark, hcause⟩ := hraises _ f w' hheading
    exact ⟨hmark, fun _ => hcause trivial⟩
  obtain ⟨-, rfl⟩ := ofExcept_eq_ok.mp hheading
  obtain ⟨hmark, hcause⟩ := (closeFields_raises keepOpen _).map _ _ f w' hclose
  exact ⟨hmark, fun hw => hcause (hopen hw.1)⟩

-- ======================================================= statements

/-- A name that cannot be assigned to is the program's. -/
theorem assign_raises (catalog : Catalog) (name : String) (value : Node) :
    Raises I D (assign catalog name value) := by
  unfold assign
  split
  · exact .mistake rfl
  · split
    · exact .pure _
    · split
      · split
        · exact .pure _
        · exact .mistake rfl
      · exact .mistake rfl

/-- The name of a builtin cannot be defined, which is the program's. -/
theorem enterDefine_raises (name : String) (params : Heading) :
    Raises I D (enterDefine name params) := by
  unfold enterDefine
  split
  · exact .mistake rfl
  · exact .total fun _ => ⟨_, _, rfl⟩

/-- The level of the parameters is there to be closed. -/
theorem define_raises (name : String) (params : Heading) (returns : Option DataType) (body : Node) :
    Raises IsOpen D (define name params returns body) := by
  refine leave_raises.bind fun captured => ?_
  dsimp only
  generalize returns.filter _ = mismatch
  cases mismatch with
  | some declared => exact .mistake rfl
  | none => exact .pure _

/-- A supertype that is no type is the program's. -/
theorem inherited_eq_error {catalog : Catalog} {supertype : Option String} {e : BuildError}
    (h : inherited catalog supertype = .error e) : e.kind = .semantic := by
  unfold inherited at h
  split at h
  · cases h
  · split at h
    · split at h
      · cases h
      · cases h
        rfl
    · cases h
      rfl

/-- A component that is there already is the program's. -/
theorem addComponents_eq_error {name : String} {heading : Heading} {columns : List Column}
    {e : BuildError} (h : addComponents name heading columns = .error e) : e.kind = .semantic := by
  induction columns generalizing heading with
  | nil => cases h
  | cons column rest ih =>
      unfold addComponents at h
      cases hpush : heading.push column with
      | error e' =>
          rw [hpush] at h
          cases h
          rfl
      | ok more =>
          rw [hpush] at h
          exact ih h

/-- A type is refused for its name, its supertype or its components. -/
theorem typeDef_raises (catalog : Catalog) (name : String) (supertype : Option String)
    (components : Heading) : Raises I D (typeDef catalog name supertype components) := by
  unfold typeDef
  split
  · exact .mistake rfl
  · refine .bind (.ofExcept fun e he hkind => ?_) fun _ => .map (.ofExcept fun e he hkind => ?_) _
    · rw [id, inherited_eq_error he] at hkind
      cases hkind
    · rw [id, addComponents_eq_error he] at hkind
      cases hkind

end

end Build

end RelQuery
