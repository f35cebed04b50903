/-
Slots of block bindings, and the names in force.

The symbol of a block binding holds a number, the position of the bound
value among the slots of the statement. Slots are a single list. A block
adds to it for every binding and cuts it back when it closes, also while
the value of an outer binding is still being built, so that a number
comes to stand for one value after another. What makes this right is
that a block never outlives its slots: wherever a level is open, the
slots of its symbols are there and hold the values that its bindings
were given (`OwnSlots`), and the names in the scopes mean what the text
says they mean (`Sees`).

What a step leaves behind is known from its own facts. An expression
keeps symbols and slots as they were (`Settled`), a list may keep its
level for the next one (`expression_kept`), a level adds the names of
its type (`Sees.opened`), and a binding adds one name (`Sees.bound`).
-/
import RelQuery.Proofs.Build.Trace

namespace RelQuery

open Build (Point Visible Names columnNames typeNames started)

namespace Workspace

-- ============================================================ slots

/-- The symbol of every block binding has a slot, which holds a value of
its type under its name. -/
def OwnSlots (w : Workspace) : Prop :=
  ∀ scope ∈ w.context.scopes.all, ∀ symbol ∈ scope.symbols, ∀ slot, symbol.kind = .bound slot →
    ∃ bound, w.locals[slot]? = some bound ∧ bound.name = symbol.name ∧
      bound.value.dataType = symbol.type

/-- The value that a symbol stands for. -/
def valueOf (locals : List LocalSlot) (symbol : Symbol) : Option Node :=
  match symbol.kind with
  | .bound slot => locals[slot]?.map (·.value)
  | _ => none

/-- The symbols of a level as names. -/
def names (locals : List LocalSlot) (symbols : List Symbol) : Names :=
  symbols.map fun symbol => (symbol.name, valueOf locals symbol)

/-- The names in the open scopes, and what their slots hold. -/
def visible (w : Workspace) : Visible :=
  w.context.scopes.all.map fun scope => names w.locals scope.symbols

/-- Bound symbols have their slots, the scopes have the given names, and
the given lists are open. -/
structure Sees (w : Workspace) (ρ : Visible) (frames : List FieldFrame) : Prop where
  own : w.OwnSlots
  visible : w.visible = ρ
  frames : w.frames = frames

/-- The same symbols, slots and lists. -/
structure SameNames (w w' : Workspace) : Prop where
  symbols : w'.context.scopes.all.map (·.symbols) = w.context.scopes.all.map (·.symbols)
  locals : w'.locals = w.locals
  frames : w'.frames = w.frames

variable {w w' w'' : Workspace} {ρ : Visible} {frames : List FieldFrame} {slots : List Nat}

theorem SameNames.refl (w : Workspace) : w.SameNames w := ⟨rfl, rfl, rfl⟩

theorem SameNames.trans (h : w.SameNames w') (h' : w'.SameNames w'') : w.SameNames w'' :=
  ⟨h'.symbols.trans h.symbols, h'.locals.trans h.locals, h'.frames.trans h.frames⟩

/-- Levels that widen keep their symbols. -/
theorem symbols_of_widens {a b : List Scope} (h : List.Forall₂ Scope.Widens a b) :
    b.map (·.symbols) = a.map (·.symbols) := by
  induction h with
  | nil => rfl
  | cons hfirst _ ih => rw [List.map_cons, List.map_cons, hfirst.symbols, ih]

theorem Widens.sameNames (h : w.Widens w' slots) : w.SameNames w' :=
  ⟨symbols_of_widens h.scopes.levels, h.locals, h.frames⟩

/-- Where the names are the same, the same is seen. -/
theorem SameNames.sees (h : w.SameNames w') (hw : w.Sees ρ frames) : w'.Sees ρ frames where
  own := by
    intro scope hscope symbol hsymbol slot hslot
    have hmem : scope.symbols ∈ w.context.scopes.all.map (·.symbols) := by
      rw [← h.symbols]
      exact List.mem_map_of_mem hscope
    obtain ⟨before, hbefore, hsame⟩ := List.mem_map.mp hmem
    rw [h.locals]
    exact hw.own before hbefore symbol (by rw [hsame]; exact hsymbol) slot hslot
  visible := by
    have hmap (v : Workspace) : v.visible
        = (v.context.scopes.all.map (·.symbols)).map (names v.locals) := by
      rw [List.map_map]
      rfl
    rw [hmap, h.symbols, h.locals, ← hmap, hw.visible]
  frames := h.frames.trans hw.frames

-- =========================================================== levels

/-- A level without block bindings adds its names. -/
theorem Sees.entered (h : w.Sees ρ frames) {scope : Scope} (mode : FoldMode)
    (hplain : ∀ symbol ∈ scope.symbols, ∀ slot, symbol.kind ≠ .bound slot) :
    (w.entered scope mode).Sees (scope.symbols.map (fun s => (s.name, none)) :: ρ) frames where
  own := by
    intro s hs symbol hsymbol slot hslot
    rcases List.mem_cons.mp hs with rfl | hs
    · exact absurd hslot (hplain symbol hsymbol slot)
    · exact h.own s hs symbol hsymbol slot hslot
  visible := by
    have hnames : names w.locals scope.symbols = scope.symbols.map fun s => (s.name, none) := by
      refine List.map_congr_left fun symbol hsymbol => ?_
      have hnone : valueOf w.locals symbol = none := by
        unfold valueOf
        split
        · exact absurd ‹_› (hplain symbol hsymbol _)
        · rfl
      rw [hnone]
    show names w.locals scope.symbols :: w.visible = _
    rw [hnames, h.visible]
  frames := h.frames

/-- A level for a heading has the names of its columns. -/
theorem Sees.seeded (h : w.Sees ρ frames) {kind : ScopeKind} {level : Nat} (heading : Heading)
    {symbolKind : SymbolKind} (mode : FoldMode) (hkind : ∀ slot, symbolKind ≠ .bound slot) :
    (w.entered (.seeded kind level heading symbolKind) mode).Sees
      (columnNames heading :: ρ) frames := by
  have hplain : ∀ symbol ∈ (Scope.seeded kind level heading symbolKind).symbols, ∀ slot,
      symbol.kind ≠ .bound slot := by
    intro symbol hsymbol slot
    obtain ⟨c, -, rfl⟩ := List.mem_map.mp hsymbol
    exact hkind slot
  simpa [Scope.seeded, columnNames, Function.comp_def] using h.entered mode hplain

/-- A level for a type puts its columns in force. -/
theorem Sees.opened (h : w.Sees ρ frames) (type : DataType) (mode : FoldMode) :
    (w.opened type mode).Sees (typeNames type :: ρ) frames := by
  cases type with
  | tuple heading => exact h.seeded heading mode (by simp)
  | relation heading => exact h.seeded heading mode (by simp)
  | user user => exact h.seeded user.heading mode (by simp)
  | _ => exact h.entered mode (fun _ hs => absurd hs List.not_mem_nil)

/-- A block begins without names. -/
theorem Sees.block (h : w.Sees ρ frames) (mode : FoldMode) :
    (w.opened none mode).Sees ([] :: ρ) frames :=
  h.entered mode (fun _ hs => absurd hs List.not_mem_nil)

/-- A list has its own level and its own frame. -/
theorem Sees.fields (h : w.Sees ρ frames) (node : Node) (l : FieldList) (type : DataType) :
    (started node l type w).Sees (typeNames type :: ρ) (⟨node.dataType, l.allBut⟩ :: frames) where
  own := (h.opened type .enabled).own
  visible := (h.opened type .enabled).visible
  frames := congrArg _ h.frames

-- ========================================================= bindings

namespace OwnSlots

variable {scope : Scope} {symbol : Symbol} {slot : Nat} {l : LocalSlot}

theorem slot_lt (h : w.OwnSlots) (hscope : scope ∈ w.context.scopes.all)
    (hsymbol : symbol ∈ scope.symbols) (hslot : symbol.kind = .bound slot) :
    slot < w.locals.length := by
  obtain ⟨bound, hbound, -⟩ := h scope hscope symbol hsymbol slot hslot
  exact (List.getElem?_eq_some_iff.mp hbound).1

/-- What is added behind the slots changes no name. -/
theorem names_append (h : w.OwnSlots) (more : List LocalSlot)
    (hscope : scope ∈ w.context.scopes.all) :
    names (w.locals ++ more) scope.symbols = names w.locals scope.symbols := by
  refine List.map_congr_left fun symbol hsymbol => ?_
  have hvalue : valueOf (w.locals ++ more) symbol = valueOf w.locals symbol := by
    unfold valueOf
    split
    · rw [List.getElem?_append_left (h.slot_lt hscope hsymbol ‹_›)]
    · rfl
  rw [hvalue]

/-- One more symbol, for the last slot. -/
theorem add (h : w.OwnSlots) (hkind : symbol.kind = .bound w.locals.length)
    (hname : l.name = symbol.name) (htype : l.value.dataType = symbol.type)
    (hscopes : w'.context.scopes.all = { w.context.scopes.current with
      symbols := w.context.scopes.current.symbols ++ [symbol] } :: w.context.scopes.outer)
    (hlocals : w'.locals = w.locals ++ [l]) : w'.OwnSlots := by
  intro scope hscope other hother slot hslot
  rw [hscopes] at hscope
  rw [hlocals]
  have hcases : (∃ scope ∈ w.context.scopes.all, other ∈ scope.symbols) ∨ other = symbol := by
    rcases List.mem_cons.mp hscope with rfl | hscope
    · rcases List.mem_append.mp hother with hother | hother
      · exact .inl ⟨_, List.mem_cons_self, hother⟩
      · exact .inr (List.mem_singleton.mp hother)
    · exact .inl ⟨scope, List.mem_cons_of_mem _ hscope, hother⟩
  rcases hcases with ⟨before, hbefore, hother⟩ | rfl
  · obtain ⟨bound, hbound, hspec⟩ := h before hbefore other hother slot hslot
    refine ⟨bound, ?_, hspec⟩
    rw [List.getElem?_append_left (h.slot_lt hbefore hother hslot)]
    exact hbound
  · rw [hkind] at hslot
    cases hslot
    exact ⟨l, List.getElem?_concat_length, hname, htype⟩

end OwnSlots

/-- A binding becomes the last name of its level. -/
theorem Sees.bound {names : Names} {name : String} {value : Node} {u : Unit} {saved : Counter}
    {pending : List Counter} {seen : List Read} {trackers : List (List Read)}
    (h : w.Sees (names :: ρ) frames) (hpending : w.pending = saved :: pending)
    (htrackers : w.context.scopes.trackers = seen :: trackers)
    (hbind : Build.bindLocal name value w = .ok u w') :
    w'.Sees ((names ++ [(name, some value)]) :: ρ) frames := by
  obtain ⟨symbol, rfl, hkind, htype, -, -, rfl⟩ := Build.bindLocal_adds hpending htrackers hbind
  obtain ⟨hfirst, hrest⟩ := List.cons.inj h.visible
  refine ⟨h.own.add hkind rfl htype.symm rfl rfl, ?_, h.frames⟩
  generalize hl : LocalSlot.mk symbol.name value _ = l
  have hcurrent : Workspace.names (w.locals ++ [l]) w.context.scopes.current.symbols = names :=
    (h.own.names_append [l] List.mem_cons_self).trans hfirst
  have houter : w.context.scopes.outer.map (fun scope =>
      Workspace.names (w.locals ++ [l]) scope.symbols) = ρ := by
    rw [← hrest]
    exact List.map_congr_left fun scope hscope =>
      h.own.names_append [l] (List.mem_cons_of_mem _ hscope)
  have hlast : Workspace.names (w.locals ++ [l]) [symbol] = [(symbol.name, some value)] := by
    simp [Workspace.names, valueOf, hkind, ← hl]
  show Workspace.names _ (w.context.scopes.current.symbols ++ [symbol]) :: _ = _
  rw [Workspace.names, List.map_append, ← Workspace.names, ← Workspace.names, hcurrent, hlast]
  exact congrArg _ houter

end Workspace

namespace Build

variable {α β : Type} {catalog : Catalog} {w w' : Workspace} {ρ : Visible}
  {frames : List FieldFrame}

-- ===================================================== settled steps

/-- The step leaves symbols, slots and lists as they were. -/
def Settled (step : Build α) : Prop :=
  ∀ w a w', step w = .ok a w' → w.SameNames w'

namespace Settled

variable {step : Build α}

/-- What turns trees into others brings no names. -/
theorem of_turns {given : List Node} {made : α → List Node} (h : Turns given step made) :
    Settled step := by
  intro w a w' ha
  obtain ⟨slots, hgrows, -, -⟩ := h w a w' ha
  exact hgrows.toWidens.sameNames

/-- Fields of a list bring no names. -/
theorem of_lists {made : α → List Segment} (h : Lists step made) : Settled step := by
  intro w a w' ha
  obtain ⟨slots, hwidens, -, -⟩ := h w a w' ha
  exact hwidens.sameNames

/-- Looking brings no names. -/
theorem of_looks {P : α → Prop} (h : Looks step P) : Settled step := by
  intro w a w' ha
  obtain ⟨rfl, -⟩ := h w a w' ha
  exact .refl w'

theorem pure (a : α) : Settled (pure a) := by
  intro w b w' h
  cases h
  exact .refl w

/-- Two steps that bring no names bring none together. -/
theorem bind {f : α → Build β} (h : Settled step) (hf : ∀ a, Settled (f a)) :
    Settled (step >>= f) := by
  intro w b w' hb
  obtain ⟨a, w₁, ha, hb⟩ := bind_eq_ok.mp hb
  exact (h w a w₁ ha).trans (hf a w₁ b w' hb)

theorem located {mark : Nat} (h : Settled step) : Settled (Build.located mark step) :=
  fun w a w' ha => h w a w' (located_eq_ok.mp ha)

end Settled

theorem orderKeys_settled (keys : List OrderKey) : Settled (orderKeys keys) :=
  fun _ _ _ h => (orderKeys_eq_ok h).1.toWidens.sameNames

/-- A field closes its own level. -/
theorem fieldEntry_settled (catalog : Catalog) (name : String) (mark : Nat) (value : Expr) :
    Settled (fieldEntry catalog (.computed name mark value)) := by
  refine .bind (.of_looks (renameSource?_looks value)) fun source => ?_
  cases source with
  | some source => exact .pure _
  | none =>
      have hfield := field_lists (expression_builds catalog false value).turns name mark
      exact .bind (.of_lists hfield) fun _ => .pure _

theorem expression_settled (catalog : Catalog) (e : Expr) : Settled (expression catalog false e) :=
  .of_turns (expression_builds catalog false e).turns

/-- What is no list keeps no level. -/
theorem kept_of_not_fields {keepOpen : Bool} {e : Expr} {n : Node} (he : e.isFields = false)
    (h : expression catalog keepOpen e w = .ok n w') :
    ∃ w₁, w.SameNames w₁ ∧ w' = w₁.kept (keepOpen && e.isFields) n := by
  rw [expression_of_not_fields he] at h
  rw [he, Bool.and_false]
  exact ⟨w', expression_settled catalog e w n w' h, rfl⟩

/-- An expression is settled, but for the level that its list keeps. -/
theorem expression_kept (keepOpen : Bool) : ∀ (e : Expr) {w w' : Workspace} {n : Node},
    expression catalog keepOpen e w = .ok n w' →
      ∃ w₁, w.SameNames w₁ ∧ w' = w₁.kept (keepOpen && e.isFields) n
  | .fields mark base l, w, w', n, h => by
      rw [expression_fields, located_eq_ok] at h
      obtain ⟨node, w₁, hnode, hlist⟩ := bind_eq_ok.mp h
      obtain ⟨w₂, hsame, rfl⟩ := expression_kept true base hnode
      rw [Bool.true_and] at hlist
      obtain ⟨-, hbody⟩ := list_begins hlist
      obtain ⟨keys, w₃, hkeys, hbody⟩ := bind_eq_ok.mp hbody
      obtain ⟨fields, w₄, hfields, hfinish⟩ := bind_eq_ok.mp hbody
      obtain ⟨hgrows, -⟩ := orderKeys_eq_ok hkeys
      obtain ⟨slots, hwidens, -, -⟩ := fieldEntries_lists catalog l.entries w₃ fields w₄ hfields
      have hlevel := hgrows.toWidens.trans hwidens
      obtain ⟨captured, w₅, hleave, rfl, -, -⟩ := finishFields_ends hlevel hfinish
      have hdropped := Workspace.Widens.dropFrame
        (w := w₂.opened (levelType base.isFields node) .enabled) hlevel
      obtain ⟨hclosed, -⟩ := leave_own rfl hdropped hleave
      rw [Expr.isFields, Bool.and_true]
      exact ⟨w₅, hsame.trans hclosed.toWidens.sameNames, rfl⟩
  | .number .., _, _, _, h | .text .., _, _, _, h | .bool .., _, _, _, h | .time .., _, _, _, h
  | .name .., _, _, _, h | .currentRow .., _, _, _, h | .call .., _, _, _, h
  | .fold .., _, _, _, h | .chain .., _, _, _, h | .not .., _, _, _, h | .neg .., _, _, _, h
  | .member .., _, _, _, h | .restrict .., _, _, _, h | .row .., _, _, _, h
  | .table .., _, _, _, h | .emptyTable .., _, _, _, h | .block .., _, _, _, h =>
      kept_of_not_fields rfl h

end Build

end RelQuery
