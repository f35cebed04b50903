/-
Levels and reads along any run of operations.

Scopes and counters are two stacks, the level of a scope is counted from
the scope that is current when it opens, and some operations fail. All
the same, the place of a scope tells its level: the scope with `k`
others around it has level `k + 1`, and so have its symbols
(`Scope.Levelled`). What makes this hold along every run is that the two
stacks are equally high. Closing can then not stop half way, so an
operation that fails changes nothing (`perform_error`); and reopening a
scope takes one away and puts one in the same place.

A read of a column is recorded by level. Since levels are places, it
concerns the scope that declares the column and those inside it, and the
scopes around that one stay as they are.
-/
import RelQuery.Proofs.Context.Recording
import RelQuery.Proofs.Type.Distinct

namespace RelQuery

/-- What is done to a context. Scopes and counters are opened and closed
together only. -/
inductive ContextStep where
  | push (type : Option DataType) (mode : FoldMode)
  | pushParameters (params : Heading)
  | pop
  | reenter (type : Option DataType)
  | reset
  | add (symbol : Symbol)
  | resolve (name : String)
  | record (column : Column) (level : Nat)
  | trackReads
  | takeReads
  | allocate (name : String) (n : Nat)
  | markWindow (name : String)
  | resetField
  | restore (saved : Counter)

namespace Context

/-- Changes the scopes, if that succeeds. -/
def withScopes (c : Context) : Except ScopeError Scopes → Except ContextError Unit × Context
  | .ok scopes => (.ok (), { c with scopes })
  | .error e => (.error (.scope e), c)

/-- Changes the counters, if that succeeds. -/
def withCounters (c : Context) : Except CounterError Counters → Except ContextError Unit × Context
  | .ok counters => (.ok (), { c with counters })
  | .error e => (.error (.counter e), c)

/-- Takes a step: whether it succeeds, and the context after it. -/
def perform (c : Context) : ContextStep → Except ContextError Unit × Context
  | .push type mode => (.ok (), c.push type mode)
  | .pushParameters params => (.ok (), c.pushParameters params)
  | .pop => (c.pop.1.map fun _ => (), c.pop.2)
  | .reenter type => ((c.reenter type).1.map fun _ => (), (c.reenter type).2)
  | .reset => (.ok (), .fresh)
  | .add symbol => c.withScopes (c.scopes.add symbol)
  | .resolve name => c.withScopes (.ok (c.scopes.resolve name).2)
  | .record column level => c.withScopes (.ok (c.scopes.record column level))
  | .trackReads => c.withScopes (.ok c.scopes.trackReads)
  | .takeReads => c.withScopes (.ok c.scopes.takeReads.2)
  | .allocate name n => c.withCounters ((c.counters.allocate name n).map (·.2))
  | .markWindow name => c.withCounters (c.counters.markWindow name)
  | .resetField => c.withCounters (.ok (c.counters.update .resetField))
  | .restore saved => c.withCounters (.ok (c.counters.restore saved))

/-- The context after some steps. A step that fails is followed by the
next one like any other. -/
def run (c : Context) (steps : List ContextStep) : Context :=
  steps.foldl (fun c step => (c.perform step).2) c

end Context

-- =========================================================== levels

/-- The scopes are listed innermost first. Each has the level that its
place gives it, one more than there are scopes around it, and its
symbols know that level. -/
inductive Scope.Levelled : List Scope → Prop
  | nil : Levelled []
  | cons {scope : Scope} {outer : List Scope} (level : scope.level = outer.length + 1)
      (symbols : ∀ symbol ∈ scope.symbols, symbol.level = scope.level) (around : Levelled outer) :
      Levelled (scope :: outer)

namespace Scope.Levelled

variable {scopes inner outer : List Scope} {scope : Scope}

/-- Places counted from the statement's scope. -/
theorem of_getElem? (h : Levelled scopes) {k : Nat} (hk : scopes.reverse[k]? = some scope) :
    scope.level = k + 1 ∧ ∀ symbol ∈ scope.symbols, symbol.level = k + 1 := by
  induction h with
  | nil => cases hk
  | @cons innermost outer level symbols _ ih =>
      rw [List.reverse_cons, List.getElem?_append] at hk
      split at hk
      · exact ih hk
      · -- the last place is that of the innermost scope
        rename_i hlength
        rw [List.length_reverse] at hk hlength
        rw [List.getElem?_singleton] at hk
        split at hk
        · cases hk
          have hlast : k = outer.length := by omega
          rw [hlast, ← level]
          exact ⟨rfl, symbols⟩
        · cases hk

/-- No scope is deeper than there are scopes around it. -/
theorem level_le (h : Levelled scopes) : ∀ scope ∈ scopes, scope.level ≤ scopes.length := by
  induction h with
  | nil => exact fun _ h => absurd h List.not_mem_nil
  | cons level _ _ ih =>
      refine List.forall_mem_cons.mpr ⟨Nat.le_of_eq level, fun scope hmem => ?_⟩
      exact Nat.le_succ_of_le (ih scope hmem)

/-- The scopes further out are levelled by themselves. -/
theorem of_append (h : Levelled (inner ++ outer)) : Levelled outer := by
  induction inner with
  | nil => exact h
  | cons scope rest ih =>
      cases h with
      | cons _ _ around => exact ih around

/-- Reads change neither levels nor symbols. -/
theorem widens {later : List Scope} (h : Levelled scopes)
    (hwidens : List.Forall₂ Scope.Widens scopes later) : Levelled later := by
  induction hwidens with
  | nil => exact .nil
  | cons hscope hrest ih =>
      cases h with
      | cons level symbols around =>
          refine .cons ?_ ?_ (ih around)
          · rw [hscope.level, ← hrest.length_eq, level]
          · rw [hscope.symbols, hscope.level]
            exact symbols

end Scope.Levelled

namespace Scopes

variable {s : Scopes} {scope : Scope}

open Scope (Levelled)

theorem levelled_fresh : Levelled Scopes.fresh.all :=
  .cons rfl (fun _ h => absurd h List.not_mem_nil) .nil

theorem level_of_levelled (h : Levelled s.all) : s.level = s.outer.length + 1 := by
  cases h with
  | cons level _ _ => exact level

/-- A new scope counts its level from the current one. -/
theorem levelled_enter (h : Levelled s.all) (hscope : s.Admits scope) :
    Levelled (s.enter scope).all := by
  refine .cons (hscope.level.trans ?_) hscope.symbols h
  rw [level_of_levelled h]
  rfl

theorem levelled_push (h : Levelled s.all) (type : Option DataType) :
    Levelled (s.push type).all :=
  levelled_enter h (admits_ofType s type)

/-- Closing the innermost scope. -/
theorem levelled_leave {parent : Scope} {rest : List Scope} (h : Levelled s.all)
    (houter : s.outer = parent :: rest) :
    Levelled (all { s with current := parent, outer := rest }) := by
  cases h with
  | cons _ _ around =>
      rw [houter] at around
      exact around

/-- A symbol that is added leaves levels and depth as they were. -/
theorem levelled_add {symbol : Symbol} {t : Scopes} (h : Levelled s.all)
    (hadd : s.add symbol = .ok t) : Levelled t.all ∧ t.depth = s.depth := by
  unfold Scopes.add at hadd
  split at hadd
  · cases hadd
  · cases hadd
    cases h with
    | cons level symbols around =>
        refine ⟨.cons level (List.forall_mem_append.mpr ⟨symbols, ?_⟩) around, rfl⟩
        exact List.forall_mem_singleton.mpr rfl

end Scopes

-- ======================================================== both stacks

namespace Counters

variable {c t : Counters} {name : String}

/-- Allocating slots opens and closes nothing. -/
theorem depth_allocate {n : Nat} (h : (c.allocate name n).map (·.2) = .ok t) :
    t.depth = c.depth := by
  unfold allocate at h
  split at h
  · cases h
    exact depth_update c _
  · cases h

/-- Marking a window opens and closes nothing. -/
theorem depth_markWindow (h : c.markWindow name = .ok t) : t.depth = c.depth := by
  unfold markWindow at h
  split at h
  · cases h
    exact depth_update c _
  · cases h

end Counters

namespace Context

variable {c : Context} {step : ContextStep}

/-- The stacks are equally high, and the scopes have the levels of their
places. -/
structure IsLevelled (c : Context) : Prop where
  inSync : c.scopes.depth = c.counters.depth
  levelled : Scope.Levelled c.scopes.all

theorem isLevelled_fresh : IsLevelled .fresh :=
  ⟨rfl, Scopes.levelled_fresh⟩

/-- Stacks that are equally high are both empty, and closing changes
nothing, or both lose what is innermost. -/
theorem pop_cases (h : c.scopes.depth = c.counters.depth) :
    c.pop = (.error (.scope .underflow), c) ∨
    ∃ parent rest entry entries, c.scopes.outer = parent :: rest ∧
      c.counters.entries = entry :: entries ∧
      c.pop = (.ok ⟨c.scopes.current, entry⟩,
        ⟨{ c.scopes with current := parent, outer := rest }, { c.counters with entries }⟩) := by
  obtain ⟨⟨current, outer, trackers⟩, ⟨root, entries⟩⟩ := c
  cases outer with
  | nil => exact .inl rfl
  | cons parent rest =>
      cases entries with
      | nil =>
          -- here closing would stop between the stacks
          cases h
      | cons entry entries => exact .inr ⟨parent, rest, entry, entries, rfl, rfl, rfl⟩

/-- Reopening fails on the statement's own scope, and otherwise puts
another scope in the place of the innermost one. -/
theorem reenter_cases (c : Context) (type : Option DataType) :
    c.reenter type = (.error (.scope .underflow), c) ∨
    ∃ parent rest type', c.scopes.outer = parent :: rest ∧
      c.reenter type = (.ok c.scopes.current,
        ⟨Scopes.push { c.scopes with current := parent, outer := rest } type',
          c.counters.update .reset⟩) := by
  obtain ⟨⟨current, outer, trackers⟩, counters⟩ := c
  cases outer with
  | nil => exact .inl rfl
  | cons parent rest => exact .inr ⟨parent, rest, _, rfl, rfl⟩

/-- A step of the scopes that fails leaves the context as it was. -/
theorem withScopes_error {r : Except ScopeError Scopes} {e : ContextError}
    (h : (c.withScopes r).1 = .error e) : (c.withScopes r).2 = c := by
  cases r with
  | ok scopes => cases h
  | error e => rfl

/-- A step of the counters that fails leaves the context as it was. -/
theorem withCounters_error {r : Except CounterError Counters} {e : ContextError}
    (h : (c.withCounters r).1 = .error e) : (c.withCounters r).2 = c := by
  cases r with
  | ok counters => cases h
  | error e => rfl

/-- An operation that fails changes nothing. -/
theorem perform_error (h : c.scopes.depth = c.counters.depth) {e : ContextError}
    (hstep : (c.perform step).1 = .error e) : (c.perform step).2 = c := by
  cases step with
  | push type mode => cases hstep
  | pushParameters params => cases hstep
  | pop =>
      obtain hpop | ⟨parent, rest, entry, entries, -, -, hpop⟩ := pop_cases h
      · rw [perform, hpop]
      · rw [perform, hpop] at hstep
        cases hstep
  | reenter type =>
      obtain hreenter | ⟨parent, rest, type', -, hreenter⟩ := reenter_cases c type
      · rw [perform, hreenter]
      · rw [perform, hreenter] at hstep
        cases hstep
  | reset => cases hstep
  | add symbol => exact withScopes_error hstep
  | resolve name => exact withScopes_error hstep
  | record column level => exact withScopes_error hstep
  | trackReads => exact withScopes_error hstep
  | takeReads => exact withScopes_error hstep
  | allocate name n => exact withCounters_error hstep
  | markWindow name => exact withCounters_error hstep
  | resetField => exact withCounters_error hstep
  | restore saved => exact withCounters_error hstep

namespace IsLevelled

/-- A step of the scopes keeps levels if it keeps levels and depth of the
scopes. -/
theorem withScopes (h : c.IsLevelled) {r : Except ScopeError Scopes}
    (hr : ∀ scopes, r = .ok scopes →
      Scope.Levelled scopes.all ∧ scopes.depth = c.scopes.depth) :
    (c.withScopes r).2.IsLevelled := by
  cases r with
  | ok scopes =>
      obtain ⟨hlevelled, hdepth⟩ := hr scopes rfl
      exact ⟨hdepth.trans h.inSync, hlevelled⟩
  | error e => exact h

/-- A step of the counters keeps levels if it keeps their depth. -/
theorem withCounters (h : c.IsLevelled) {r : Except CounterError Counters}
    (hr : ∀ counters, r = .ok counters → counters.depth = c.counters.depth) :
    (c.withCounters r).2.IsLevelled := by
  cases r with
  | ok counters => exact ⟨h.inSync.trans (hr counters rfl).symm, h.levelled⟩
  | error e => exact h

/-- Scopes that stay open have at most noted reads. -/
theorem widens (h : c.IsLevelled) {scopes : Scopes} (hwidens : c.scopes.Widens scopes) :
    (c.withScopes (.ok scopes)).2.IsLevelled := by
  refine h.withScopes fun t ht => ?_
  cases ht
  exact ⟨h.levelled.widens hwidens.levels, Nat.succ.inj hwidens.levels.length_eq.symm⟩

/-- Changing the current counter keeps levels. -/
theorem update (h : c.IsLevelled) (f : Counter → Counter) :
    (c.withCounters (.ok (c.counters.update f))).2.IsLevelled := by
  refine h.withCounters fun t ht => ?_
  cases ht
  exact Counters.depth_update c.counters f

theorem push (h : c.IsLevelled) (type : Option DataType) (mode : FoldMode) :
    (c.push type mode).IsLevelled :=
  ⟨congrArg (· + 1) h.inSync, Scopes.levelled_push h.levelled type⟩

theorem pushParameters (h : c.IsLevelled) (params : Heading) :
    (c.pushParameters params).IsLevelled :=
  ⟨congrArg (· + 1) h.inSync,
    Scopes.levelled_enter h.levelled (Scopes.admits_seeded _ _ _ _)⟩

/-- Popping takes a scope and a counter at once. -/
theorem pop (h : c.IsLevelled) : c.pop.2.IsLevelled := by
  obtain hpop | ⟨parent, rest, entry, entries, houter, hentries, hpop⟩ := pop_cases h.inSync
  · rw [hpop]
    exact h
  · obtain ⟨hdepth, hlevelled⟩ := h
    rw [Scopes.depth, houter, Counters.depth, hentries] at hdepth
    rw [hpop]
    exact ⟨Nat.succ.inj hdepth, Scopes.levelled_leave hlevelled houter⟩

/-- Coming back to a scope opens one of each. -/
theorem reenter (h : c.IsLevelled) (type : Option DataType) :
    (c.reenter type).2.IsLevelled := by
  obtain hreenter | ⟨parent, rest, type', houter, hreenter⟩ := reenter_cases c type
  · rw [hreenter]
    exact h
  · obtain ⟨hdepth, hlevelled⟩ := h
    rw [Scopes.depth, houter] at hdepth
    rw [hreenter]
    exact ⟨hdepth.trans (Counters.depth_update _ _).symm,
      Scopes.levelled_push (Scopes.levelled_leave hlevelled houter) type'⟩

/-- No operation disturbs the levels, whether it succeeds or fails. -/
theorem perform (h : c.IsLevelled) (step : ContextStep) : (c.perform step).2.IsLevelled := by
  cases step with
  | push type mode => exact h.push type mode
  | pushParameters params => exact h.pushParameters params
  | pop => exact h.pop
  | reenter type => exact h.reenter type
  | reset => exact isLevelled_fresh
  | add symbol => exact h.withScopes fun _ hadd => Scopes.levelled_add h.levelled hadd
  | resolve name => exact h.widens (.resolve c.scopes name)
  | record column level => exact h.widens (.record c.scopes column level)
  | trackReads => exact ⟨h.inSync, h.levelled⟩
  | takeReads =>
      refine h.withScopes fun scopes hscopes => ?_
      cases hscopes
      unfold Scopes.takeReads
      split
      · exact ⟨h.levelled, rfl⟩
      · exact ⟨h.levelled, rfl⟩
  | allocate name n => exact h.withCounters fun _ => Counters.depth_allocate
  | markWindow name => exact h.withCounters fun _ => Counters.depth_markWindow
  | resetField => exact h.update .resetField
  | restore saved => exact h.update fun _ => saved

/-- Any steps keep levels, since each does: the induction is on the steps. -/
theorem run (h : c.IsLevelled) (steps : List ContextStep) : (c.run steps).IsLevelled := by
  induction steps generalizing c with
  | nil => exact h
  | cons step rest ih => exact ih (h.perform step)

end IsLevelled

end Context

-- ============================================================ reads

/-- From `s` to `t` by a read of a column that is declared at `level`. A
scope is concerned if it has a heading and lies at that level or further
in. -/
structure Scope.Lists (column : Column) (level : Nat) (s t : Scope) : Prop where
  concerned : s.heading.isSome = true → level ≤ s.level →
    t.lookup = if column.name ∈ s.lookup.names then s.lookup else s.lookup ++ [column]
  unconcerned : s.heading = none ∨ s.level < level → t.lookup = s.lookup
  others : { t with lookup := s.lookup } = s

/-- A read from a level at or within a scope's own is listed there. -/
theorem Scope.lists_record (column : Column) (level : Nat) (s : Scope) :
    s.Lists column level (s.record column level) := by
  obtain ⟨kind, symbols, heading, lookup, own⟩ := s
  unfold record
  constructor
  · intro hheading hlevel
    dsimp only at hheading hlevel ⊢
    rw [if_pos (Bool.and_eq_true_iff.mpr ⟨decide_eq_true hlevel, hheading⟩)]
    unfold Heading.insertNew
    simp only [Heading.has_eq_true]
  · rintro (hheading | hlevel)
    · dsimp only at hheading
      subst hheading
      simp
    · have hfar : ¬level ≤ own := Nat.not_le_of_lt hlevel
      simp [hfar]
  · split
    · rfl
    · rfl

/-- `scope` declares `symbol` under the name, with `outer` around it, and
none of the scopes inside it declares the name. -/
structure Scopes.IsInnermost (s : Scopes) (name : String) (symbol : Symbol)
    (inner : List Scope) (scope : Scope) (outer : List Scope) : Prop where
  all : s.all = inner ++ scope :: outer
  declared : scope.get? name = some symbol
  hidden : ∀ other ∈ inner, other.get? name = none

namespace Scopes

variable {s : Scopes} {name : String} {symbol : Symbol} {inner outer : List Scope} {scope : Scope}

/-- A name resolves to a symbol just if that is its innermost one. -/
theorem resolve_eq_some_iff : (s.resolve name).1 = some symbol ↔
    ∃ inner scope outer, s.IsInnermost name symbol inner scope outer := by
  rw [resolve_eq]
  show s.all.findSome? (·.get? name) = some symbol ↔ _
  rw [List.findSome?_eq_some_iff]
  constructor
  · rintro ⟨inner, scope, outer, hall, hdeclared, hhidden⟩
    exact ⟨inner, scope, outer, hall, hdeclared, hhidden⟩
  · rintro ⟨inner, scope, outer, hall, hdeclared, hhidden⟩
    exact ⟨inner, scope, outer, hall, hdeclared, hhidden⟩

theorem IsInnermost.name_eq (h : s.IsInnermost name symbol inner scope outer) :
    symbol.name = name :=
  (Scope.get?_eq_some h.declared).2

/-- Finding a column records it in every open scope. -/
theorem IsInnermost.all_resolve (h : s.IsInnermost name symbol inner scope outer)
    (hlookup : symbol.kind.isLookup = true) :
    (s.resolve name).2.all = s.all.map (·.record ⟨name, symbol.type⟩ symbol.level) := by
  have hfind := resolve_eq_some_iff.mpr ⟨inner, scope, outer, h⟩
  rw [resolve_eq] at hfind ⊢
  dsimp only at hfind ⊢
  rw [readOf, hfind]
  dsimp only
  rw [if_pos hlookup, ← h.name_eq]
  rfl

/-- Scopes around the one that declares the column are not concerned. -/
theorem map_record_outer (h : Scope.Levelled (scope :: outer)) (column : Column) :
    outer.map (·.record column scope.level) = outer := by
  cases h with
  | cons level _ around =>
      have hkept : ∀ other ∈ outer, other.record column scope.level = other := by
        intro other hmem
        have hfar : ¬scope.level ≤ other.level := by
          have hother := around.level_le other hmem
          omega
        unfold Scope.record
        simp [hfar]
      rw [List.map_congr_left hkept, List.map_id']

end Scopes

namespace Context

/-- Levels are kept and reads are recorded exactly. After any steps, some
of which may have failed, both stacks are equally high, the scope `k`
levels above the statement's has level `k + 1` and so have its symbols,
and a step that fails would change nothing. A name leads to its innermost
symbol. If that is a column, then each open scope with a heading that
lies at the column's level or further in lists it, unless it lists the
name already, and nothing else changes in any scope; in particular the
scopes around the one that declares the column stay as they are. -/
theorem steps_keep_levels_and_list_reads (steps : List ContextStep) :
    let c := fresh.run steps
    c.scopes.depth = c.counters.depth ∧
    (∀ k scope, c.scopes.all.reverse[k]? = some scope →
      scope.level = k + 1 ∧ ∀ symbol ∈ scope.symbols, symbol.level = k + 1) ∧
    (∀ step e, (c.perform step).1 = .error e → (c.perform step).2 = c) ∧
    ∀ name,
      (∀ symbol, (c.scopes.resolve name).1 = some symbol ↔
        ∃ inner scope outer, c.scopes.IsInnermost name symbol inner scope outer) ∧
      ∀ symbol inner scope outer, c.scopes.IsInnermost name symbol inner scope outer →
        symbol.kind.isLookup = true →
          List.Forall₂ (Scope.Lists ⟨name, symbol.type⟩ symbol.level)
            c.scopes.all (c.scopes.resolve name).2.all ∧
          outer <:+ (c.scopes.resolve name).2.all := by
  intro c
  have hlevelled : c.IsLevelled := isLevelled_fresh.run steps
  refine ⟨hlevelled.inSync, fun k scope hk => hlevelled.levelled.of_getElem? hk,
    fun step e hstep => perform_error hlevelled.inSync hstep, fun name =>
    ⟨fun symbol => Scopes.resolve_eq_some_iff, fun symbol inner scope outer h hlookup => ?_⟩⟩
  -- each scope records the read by its own level
  constructor
  · rw [h.all_resolve hlookup, List.forall₂_map_right_iff]
    exact List.forall₂_same.mpr fun s _ => Scope.lists_record _ _ s
  · -- levels are places, so the scopes around lie below the symbol's level
    have hscopes := hlevelled.levelled
    rw [h.all] at hscopes
    have hinside := hscopes.of_append
    have hlevel : symbol.level = scope.level := by
      cases hinside with
      | cons _ symbols _ => exact symbols symbol (Scope.get?_eq_some h.declared).1
    rw [h.all_resolve hlookup, h.all, List.map_append, List.map_cons, hlevel,
      Scopes.map_record_outer hinside]
    exact (List.suffix_cons _ outer).trans (List.suffix_append _ _)

/-- A block inside a relation and a tuple inside the block, after three
steps that fail: nothing is open, a name is taken, folds are refused. The
column of the relation is listed there and by the tuple, but not by the
block between them. -/
theorem steps_keep_levels_and_list_reads_nested :
    let x : Symbol := { name := "x", kind := .bound 0, type := .bool }
    let a : Symbol := { name := "a", kind := .field, type := .number, level := 2 }
    let c := fresh.run [.pop, .push (some (.relation [⟨"a", .number⟩])) .enabled,
      .push none .inherit, .add x, .add x, .push (some (.tuple [⟨"b", .text⟩])) .disabled,
      .allocate "sum" 1, .resolve "b"]
    c.scopes.depth = c.counters.depth ∧
    (∃ scope, c.scopes.all.reverse[3]? = some scope ∧ scope.level = 4) ∧
    (c.perform (.markWindow "lag")).2 = c ∧
    (c.scopes.resolve "a").1 = some a ∧
    List.Forall₂ (Scope.Lists ⟨"a", .number⟩ 2) c.scopes.all (c.scopes.resolve "a").2.all ∧
    (c.scopes.resolve "a").2.all.map (fun s => s.lookup.names)
      = [["b", "a"], [], ["a"], []] := by
  intro x a c
  obtain ⟨hdepth, hlevels, hfailed, hresolve⟩ := steps_keep_levels_and_list_reads
    [.pop, .push (some (.relation [⟨"a", .number⟩])) .enabled, .push none .inherit, .add x,
      .add x, .push (some (.tuple [⟨"b", .text⟩])) .disabled, .allocate "sum" 1, .resolve "b"]
  obtain ⟨hfound, hlisted⟩ := hresolve "a"
  have hinnermost : ∃ inner scope outer, c.scopes.IsInnermost "a" a inner scope outer :=
    (hfound a).mp rfl
  obtain ⟨inner, scope, outer, h⟩ := hinnermost
  exact ⟨hdepth, ⟨_, rfl, (hlevels 3 _ rfl).1⟩, hfailed (.markWindow "lag") _ rfl, rfl,
    (hlisted a inner scope outer h rfl).1, rfl⟩

end Context

end RelQuery
