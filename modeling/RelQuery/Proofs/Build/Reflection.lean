/-
Scopes and surroundings.

While a tree is built, names are looked up in the scopes that are open;
afterwards, what a name means can be read off the surroundings of the
place. A workspace reflects surroundings if the two agree on every name
(`Workspace.Reflects`). It does so at the start of a statement, where
both are empty, and opening a row or binding a name does the same to
both. Reads that are recorded in between change neither.

A bound value is looked up in the workspace in which it was bound. So
what is to be known of it where the name is used is fixed when the name
is bound (`LocalSlot.IsSoundAt`): the value heeds its surroundings, and
its reads have an entry for each column that it shows.
-/
import RelQuery.Proofs.Build.Capture
import RelQuery.Proofs.Node.Heed

namespace RelQuery

open Node (EverywhereIn Heeds)

/-- The value heeds the place where it was bound, and for each column
that it shows there is a read, of a column that is still on offer. -/
structure LocalSlot.IsSoundAt (s : Scopes) (Γ : Surroundings) (l : LocalSlot) : Prop where
  heeds : l.value.EverywhereIn Heeds Γ
  reads : ∀ c, l.value.Shows Γ c → ∃ r ∈ l.reads, r.column.name = c.name ∧
    s.OffersAt c.name r.level

/-- What the scopes find for a name is what it means. -/
inductive Symbol.Means (s : Scopes) (locals : List LocalSlot) :
    Option Symbol → Option Sense → Prop
  | nothing : Means s locals none none
  | column {symbol : Symbol} (h : symbol.kind = .field ∨ symbol.kind = .component) :
    Means s locals (some symbol) (some (.column ⟨symbol.name, symbol.type⟩))
  | parameter {symbol : Symbol} (h : symbol.kind = .parameter) :
    Means s locals (some symbol) (some (.parameter ⟨symbol.name, symbol.type⟩))
  | bound {symbol : Symbol} {slot : Nat} {l : LocalSlot} {Γ : Surroundings}
    (hkind : symbol.kind = .bound slot) (hslot : locals[slot]? = some l) (h : l.IsSoundAt s Γ) :
    Means s locals (some symbol) (some (.bound Γ))

/-- The open scopes know the row at hand and the names around it. -/
structure Workspace.Reflects (w : Workspace) (Γ : Surroundings) : Prop where
  row : w.context.scopes.heading? = Γ.row?
  names : ∀ name,
    Symbol.Means w.context.scopes w.locals (w.context.scopes.find? name) (Γ.sense? name)

-- ============================================================ scopes

namespace Scope

/-- The scope of a type finds the columns of its heading. -/
theorem get?_ofType_cases {type : DataType} {heading : Heading} (h : type.heading? = some heading)
    (level : Nat) (name : String) :
    (Heading.get? heading name = none ∧ (ofType (some type) level).get? name = none) ∨
    ∃ symbol : Symbol, (symbol.kind = .field ∨ symbol.kind = .component) ∧
      Heading.get? heading name = some ⟨symbol.name, symbol.type⟩ ∧
      (ofType (some type) level).get? name = some symbol := by
  have hseeded (kind : ScopeKind) {symbolKind : SymbolKind}
      (hkind : symbolKind = .field ∨ symbolKind = .component) :
      (Heading.get? heading name = none ∧
        (seeded kind level heading symbolKind).get? name = none) ∨
      ∃ symbol : Symbol, (symbol.kind = .field ∨ symbol.kind = .component) ∧
        Heading.get? heading name = some ⟨symbol.name, symbol.type⟩ ∧
        (seeded kind level heading symbolKind).get? name = some symbol := by
    rw [get?_seeded_eq]
    cases hget : Heading.get? heading name with
    | none => exact .inl ⟨rfl, rfl⟩
    | some c =>
        obtain ⟨label, type⟩ := c
        exact .inr ⟨{ name := label, kind := symbolKind, type, level }, hkind, rfl, rfl⟩
  cases type with
  | tuple own =>
      cases h
      exact hseeded .fields (.inl rfl)
  | relation own =>
      cases h
      exact hseeded .fields (.inl rfl)
  | user user =>
      cases h
      exact hseeded .components (.inr rfl)
  | _ => cases h

/-- A name is looked up among the symbols that were there and then the new
one. -/
theorem get?_append (scope : Scope) (symbol : Symbol) (name : String) :
    get? { scope with symbols := scope.symbols ++ [symbol] } name
      = (scope.get? name).or (if symbol.name = name then some symbol else none) := by
  rw [get?, List.find?_append, List.find?_singleton]
  congr 1
  by_cases hname : symbol.name = name
  · rw [if_pos hname, if_pos (beq_iff_eq.mpr hname)]
  · rw [if_neg hname, if_neg fun h => hname (beq_iff_eq.mp h)]

end Scope

/-- Recording changes no heading. -/
theorem Scopes.Widens.heading?_eq {s t : Scopes} (h : s.Widens t) : t.heading? = s.heading? := by
  have hlevels := h.levels
  unfold Scopes.heading?
  generalize s.all = xs at hlevels
  generalize t.all = ys at hlevels
  induction hlevels with
  | nil => rfl
  | cons hscope _ ih => rw [List.findSome?_cons, List.findSome?_cons, hscope.heading, ih]

/-- The heading of the row is that of the innermost level that has one. -/
theorem Scopes.heading?_enter (s : Scopes) (scope : Scope) :
    (s.enter scope).heading? = scope.heading.or s.heading? := by
  show (scope :: s.all).findSome? _ = _
  rw [List.findSome?_cons]
  cases scope.heading with
  | some heading => rfl
  | none => rfl

-- ============================================================ names

namespace Symbol.Means

variable {s t : Scopes} {locals more : List LocalSlot}
variable {found : Option Symbol} {sense : Option Sense}

/-- What a name means stays the same while its scope is open. -/
theorem mono (h : Means s locals found sense)
    (hlevels : ∀ scope ∈ s.all, ∃ scope' ∈ t.all,
      scope'.level = scope.level ∧ scope.symbols ⊆ scope'.symbols) :
    Means t (locals ++ more) found sense := by
  cases h with
  | nothing => exact .nothing
  | column h => exact .column h
  | parameter h => exact .parameter h
  | bound hkind hslot hsound =>
      refine .bound hkind ?_ ⟨hsound.heeds, fun c hc => ?_⟩
      · rw [List.getElem?_append_left (List.getElem?_eq_some_iff.mp hslot).1]
        exact hslot
      · obtain ⟨r, hr, hname, hoffers⟩ := hsound.reads c hc
        exact ⟨r, hr, hname, hoffers.of_levels hlevels⟩

end Symbol.Means

namespace Workspace

variable {w w' : Workspace} {Γ Γ' : Surroundings} {heading : Heading}

namespace Reflects

theorem fresh : Reflects { context := .fresh } .statement where
  row := rfl
  names := fun _ => .nothing

/-- The same scopes and bound values, in surroundings with the same
names. -/
theorem congr (h : w.Reflects Γ) (hrow : Γ'.row? = Γ.row?) (hsense : Γ'.sense? = Γ.sense?) :
    w.Reflects Γ' where
  row := hrow ▸ h.row
  names := hsense ▸ h.names

/-- Only the open scopes and the bound values matter. -/
theorem of_levels (h : w.Reflects Γ) (hlocals : w'.locals = w.locals)
    (hlevels : ∀ scope ∈ w.context.scopes.all, ∃ scope' ∈ w'.context.scopes.all,
      scope'.level = scope.level ∧ scope.symbols ⊆ scope'.symbols)
    (hheading : w'.context.scopes.heading? = w.context.scopes.heading?)
    (hfind : ∀ name, w'.context.scopes.find? name = w.context.scopes.find? name) :
    w'.Reflects Γ where
  row := hheading.trans h.row
  names := by
    intro name
    rw [hfind, hlocals, ← List.append_nil w.locals]
    exact (h.names name).mono hlevels

theorem widens (h : w.Reflects Γ) (hlocals : w'.locals = w.locals)
    (hwidens : w.context.scopes.Widens w'.context.scopes) : w'.Reflects Γ :=
  h.of_levels hlocals hwidens.same_levels hwidens.heading?_eq hwidens.find?_eq

/-- A scope with a heading is one more row, if it finds the columns of
the heading and no other name. -/
theorem enter (h : w.Reflects Γ) (scope : Scope)
    (hscopes : w'.context.scopes = w.context.scopes.enter scope)
    (hlocals : w'.locals = w.locals) (hrow : Γ'.row? = scope.heading.or Γ.row?)
    (hnames : ∀ name, (scope.get? name = none ∧ Γ'.sense? name = Γ.sense? name) ∨
      ∃ symbol, scope.get? name = some symbol ∧
        ∀ s locals, Symbol.Means s locals (some symbol) (Γ'.sense? name)) :
    w'.Reflects Γ' where
  row := by rw [hscopes, Scopes.heading?_enter, hrow, h.row]
  names := by
    intro name
    rw [hscopes, Scopes.find?_enter]
    rcases hnames name with ⟨hget, hsense⟩ | ⟨symbol, hget, hmeans⟩
    · rw [hget, hsense, hlocals, ← List.append_nil w.locals]
      exact (h.names name).mono fun scope hscope =>
        ⟨scope, List.mem_cons_of_mem _ hscope, rfl, List.Subset.refl _⟩
    · rw [hget]
      exact hmeans _ _

/-- A level for a type stands in a row of the type. -/
theorem opened {type : DataType} (h : w.Reflects Γ) (hheading : type.heading? = some heading)
    (mode : FoldMode) : (w.opened type mode).Reflects (Γ.row heading) := by
  refine h.enter (.ofType type (w.context.scopes.level + 1)) rfl rfl ?_ fun name => ?_
  · rw [Scope.heading_ofType, hheading]
    rfl
  · rw [Surroundings.sense?]
    rcases Scope.get?_ofType_cases hheading (w.context.scopes.level + 1) name with
      ⟨hnone, hget⟩ | ⟨symbol, hkind, hsome, hget⟩
    · rw [hnone]
      exact .inl ⟨hget, rfl⟩
    · rw [hsome]
      exact .inr ⟨symbol, hget, fun _ _ => .column hkind⟩

/-- Parameters stand in the scope of a definition. -/
theorem parameters (h : w.Reflects Γ) (params : Heading) (mode : FoldMode) :
    (w.entered (.seeded .parameters (w.context.scopes.level + 1) params .parameter) mode).Reflects
      (Γ.parameters params) := by
  refine h.enter _ rfl rfl rfl fun name => ?_
  rw [Surroundings.sense?, Scope.get?_seeded_eq]
  cases hget : Heading.get? params name with
  | none => exact .inl ⟨rfl, rfl⟩
  | some c =>
      obtain ⟨label, type⟩ := c
      exact .inr ⟨_, rfl, fun _ _ => .parameter rfl⟩

/-- The scope of a block begins without names. -/
theorem block (h : w.Reflects Γ) (mode : FoldMode) : (w.opened none mode).Reflects Γ :=
  h.enter (.ofType none (w.context.scopes.level + 1)) rfl rfl rfl fun _ => .inl ⟨rfl, rfl⟩

/-- A name that is new to the innermost scope stands for a value. -/
theorem bind {symbol : Symbol} {l : LocalSlot} {trackers : List (List Read)} {counters : Counters}
    {pending : List Counter} {frames : List FieldFrame} (h : w.Reflects Γ)
    (hkind : symbol.kind = .bound w.locals.length)
    (hnew : w.context.scopes.current.get? symbol.name = none)
    (hl : l.IsSoundAt w.context.scopes Γ) :
    Reflects ⟨⟨⟨{ w.context.scopes.current with
        symbols := w.context.scopes.current.symbols ++ [symbol] }, w.context.scopes.outer,
      trackers⟩, counters⟩, w.locals ++ [l], pending, frames⟩ (Γ.bound symbol.name) := by
  have hlevels : ∀ scope ∈ w.context.scopes.all, ∃ scope' ∈
      { w.context.scopes.current with
        symbols := w.context.scopes.current.symbols ++ [symbol] } :: w.context.scopes.outer,
      scope'.level = scope.level ∧ scope.symbols ⊆ scope'.symbols :=
    List.forall_mem_cons.mpr ⟨⟨_, List.mem_cons_self, rfl, List.subset_append_left _ _⟩,
      fun scope hmem => ⟨scope, List.mem_cons_of_mem _ hmem, rfl, List.Subset.refl _⟩⟩
  refine ⟨h.row, fun name => ?_⟩
  rw [Surroundings.sense?]
  unfold Scopes.find? Scopes.all
  rw [List.findSome?_cons, Scope.get?_append]
  by_cases hname : symbol.name = name
  · subst hname
    rw [hnew, if_pos rfl, if_pos rfl]
    refine .bound hkind ?_ ⟨hl.heeds, fun c hc => ?_⟩
    · rw [List.getElem?_append_right (Nat.le_refl _), Nat.sub_self]
      rfl
    · obtain ⟨r, hr, hsame, hoffers⟩ := hl.reads c hc
      exact ⟨r, hr, hsame, hoffers.of_levels hlevels⟩
  · rw [if_neg hname, if_neg hname, Option.or_none]
    exact (h.names name).mono hlevels

-- =========================================================== columns

/-- A name that means a column or a parameter leads to it. -/
theorem findsAt {c : Column} (h : w.Reflects Γ)
    (hsense : Γ.sense? c.name = some (.column c) ∨ Γ.sense? c.name = some (.parameter c)) :
    ∃ level, w.context.scopes.FindsAt c level := by
  have hmeans := h.names c.name
  generalize hfind : w.context.scopes.find? c.name = found at hmeans
  generalize Γ.sense? c.name = sense at hmeans hsense
  cases hmeans with
  | nothing => exact hsense.elim (fun h => nomatch h) fun h => nomatch h
  | bound _ _ _ => exact hsense.elim (fun h => nomatch h) fun h => nomatch h
  | @column symbol hkind =>
      have hc : c = ⟨symbol.name, symbol.type⟩ := hsense.elim
        (fun h => (Sense.column.inj (Option.some.inj h)).symm) fun h => nomatch h
      refine ⟨symbol.level, symbol, hfind, ?_, by rw [hc], rfl⟩
      rcases hkind with hkind | hkind
      · rw [hkind]
        rfl
      · rw [hkind]
        rfl
  | @parameter symbol hkind =>
      have hc : c = ⟨symbol.name, symbol.type⟩ := hsense.elim (fun h => nomatch h)
        fun h => (Sense.parameter.inj (Option.some.inj h)).symm
      refine ⟨symbol.level, symbol, hfind, ?_, by rw [hc], rfl⟩
      rw [hkind]
      rfl

/-- A symbol for a column is what its name means. -/
theorem sense_of_find? {name : String} {symbol : Symbol} (h : w.Reflects Γ)
    (hfind : w.context.scopes.find? name = some symbol)
    (hkind : symbol.kind = .field ∨ symbol.kind = .component) :
    Γ.sense? name = some (.column ⟨symbol.name, symbol.type⟩) := by
  have hmeans := h.names name
  rw [hfind] at hmeans
  generalize Γ.sense? name = sense at hmeans
  cases hmeans with
  | column _ => rfl
  | parameter hother => rcases hkind with hkind | hkind <;> rw [hkind] at hother <;> cases hother
  | bound hother _ _ => rcases hkind with hkind | hkind <;> rw [hkind] at hother <;> cases hother

/-- A symbol for a bound value leads to it, and so to where it was
bound. -/
theorem bound_of_find? {name : String} {symbol : Symbol} {slot : Nat} (h : w.Reflects Γ)
    (hfind : w.context.scopes.find? name = some symbol) (hkind : symbol.kind = .bound slot) :
    ∃ l, w.locals[slot]? = some l ∧ l.IsSoundAt w.context.scopes (Γ.valueAround name) := by
  have hmeans := h.names name
  rw [hfind] at hmeans
  unfold Surroundings.valueAround
  generalize Γ.sense? name = sense at hmeans
  cases hmeans with
  | column hother => rcases hother with hother | hother <;> rw [hkind] at hother <;> cases hother
  | parameter hother =>
      rw [hkind] at hother
      cases hother
  | bound hother hslot hsound =>
      rw [hkind] at hother
      cases hother
      exact ⟨_, hslot, hsound⟩

end Reflects

end Workspace

end RelQuery
