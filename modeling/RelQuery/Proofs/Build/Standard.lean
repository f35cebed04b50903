/-
Building keeps to a standard.

A type gets into a tree from four places: the scopes, the values bound
in blocks, the open field lists and the catalog. If the types in all of
them meet a standard (`Workspace.Meets`, `Catalog.Meets`), so do those
of what is built, and those of the scopes, bound values and lists that
building leaves. So the invariant is one of the whole workspace, and
each step is shown to keep it (`Upholds`); no step has to know which
level it works at, and none has to know the standard. A time gets in
from the text alone, so the times of the sentence are asked to be ones
that the standard allows (`Expr.Meets`).

Two places need a look at what was checked before. A call replaces the
placeholder that its builtin returns. And the segment that loads a kept
column falls back on a placeholder for a column that is not there, which
the heading of the list's result has ruled out.
-/
import RelQuery.Proofs.Build.Copy
import RelQuery.Proofs.Build.Statement
import RelQuery.Proofs.Context.Standard
import RelQuery.Proofs.Grammar.Marks
import RelQuery.Proofs.Node.Standard

namespace RelQuery

open Node (Everywhere AllHave)

variable {S : Standard}

-- ======================================================= invariants

/-- The scopes, bound values and open lists meet the standard. -/
structure Workspace.Meets (S : Standard) (w : Workspace) : Prop where
  scopes : w.context.scopes.Meets S
  locals : ∀ l ∈ w.locals, l.value.Everywhere (Node.Meets S) ∧ Read.AllMeet S l.reads
  frames : ∀ f ∈ w.frames, S.Allows f.base

/-- The type of an entry meets the standard, and so does what its links
return. -/
structure Symbol.Meets (S : Standard) (s : Symbol) : Prop where
  type : S.Allows s.type
  returns : ∀ link ∈ s.links, S.Allows link.returns

/-- All entries meet the standard. -/
def Catalog.Meets (S : Standard) (c : Catalog) : Prop :=
  ∀ symbol ∈ c.entries, symbol.Meets S

/-- A time that is written out meets the standard. -/
def Expr.Meets (S : Standard) : Expr → Prop
  | .time _ moment => S.AllowsTime moment
  | _ => True

/-- All times that are written in the sentence meet the standard. -/
def Sentence.Meets (S : Standard) (s : Sentence) : Prop :=
  ∀ e ∈ s.expression?, e.Everywhere (Expr.Meets S)

/-- A standard that allows all times asks nothing of a sentence. -/
theorem Sentence.meets_of_times (htimes : ∀ m, S.AllowsTime m) (s : Sentence) : s.Meets S := by
  intro e _ x _
  cases x with
  | time mark moment => exact htimes moment
  | _ => trivial

theorem Catalog.Meets.find? {c : Catalog} (h : c.Meets S) {name : String} {s : Symbol}
    (hs : c.find? name = some s) : s.Meets S :=
  h s (List.mem_of_find?_eq_some hs)

/-- A link that was entered returns no placeholder. -/
theorem Symbol.Meets.settles {s : Symbol} (h : s.Meets S) : s.Settles S :=
  fun link hlink => .inl (h.returns link hlink)

namespace Workspace

variable {w : Workspace}

theorem Meets.onScopes (hw : w.Meets S) {scopes : Scopes} (h : scopes.Meets S) :
    Meets S { w with context := { w.context with scopes } } :=
  ⟨h, hw.locals, hw.frames⟩

/-- Counters hold no types. -/
theorem Meets.onCounters (hw : w.Meets S) (counters : Counters) :
    Meets S { w with context := { w.context with counters } } :=
  ⟨hw.scopes, hw.locals, hw.frames⟩

/-- Where a statement begins nothing is bound and no list is open. -/
theorem meets_fresh : Meets S { context := .fresh } :=
  ⟨.fresh, fun _ h => absurd h List.not_mem_nil, fun _ h => absurd h List.not_mem_nil⟩

end Workspace

-- ============================================================ steps

namespace Build

variable {α β : Type} {w w' : Workspace}

/-- From a workspace with `I` the step gets to one with `I`, and what
it gives has `P`. -/
def Carries (I : Workspace → Prop) (step : Build α) (P : α → Prop) : Prop :=
  ∀ w a w', I w → step w = .ok a w' → I w' ∧ P a

namespace Carries

variable {I : Workspace → Prop} {step : Build α} {f : α → Build β} {P : α → Prop} {Q : β → Prop}

theorem pure {a : α} (h : P a) : Carries I (pure a) P := by
  rintro w _ _ hw ⟨⟩
  exact ⟨hw, h⟩

theorem throw (e : BuildFault) : Carries I (throw e) P :=
  fun _ _ _ _ h => nomatch h

theorem fail (e : BuildError) : Carries I (fail e) P :=
  throw _

/-- What the first step gives may be used in showing what the second one
does. -/
theorem bind (h : Carries I step P) (hf : ∀ a, P a → Carries I (f a) Q) :
    Carries I (step >>= f) Q := by
  intro w b w' hw hb
  obtain ⟨a, w₁, ha, hfa⟩ := bind_eq_ok.mp hb
  obtain ⟨hw₁, hp⟩ := h w a w₁ hw ha
  exact hf a hp w₁ b w' hw₁ hfa

theorem map (h : Carries I step P) {g : α → β} (hg : ∀ a, P a → Q (g a)) :
    Carries I (step >>= fun a => Pure.pure (g a)) Q :=
  h.bind fun a ha => .pure (hg a ha)

theorem mono (h : Carries I step P) {P' : α → Prop} (hp : ∀ a, P a → P' a) :
    Carries I step P' :=
  fun w a w' hw ha => (h w a w' hw ha).imp_right (hp a)

/-- A mark only matters to a fault. -/
theorem located {mark : Nat} (h : Carries I step P) : Carries I (located mark step) P :=
  fun w a w' hw ha => h w a w' hw (located_eq_ok.mp ha)

theorem get_bind {f : Workspace → Build β} (h : ∀ w, I w → Carries I (f w) Q) :
    Carries I (get >>= f) Q :=
  fun w b w' hw hb => h w hw w b w' hw hb

/-- An outcome is passed on, an error as a fault. -/
theorem ofExcept_bind {ε : Type} {wrap : ε → BuildError} {r : Except ε α}
    (h : ∀ a, r = .ok a → Carries I (f a) Q) : Carries I (ofExcept wrap r >>= f) Q := by
  cases r with
  | ok a => exact h a rfl
  | error e => exact fail (wrap e)

/-- Only the result is thrown away. -/
theorem discard (h : Carries I step P) : Carries I (discard step) fun _ => True := by
  intro w u w' hw hu
  obtain ⟨a, ha⟩ := discard_eq_ok.mp hu
  exact ⟨(h w a w' hw ha).1, trivial⟩

end Carries

/-- A step that changes nothing keeps every invariant. -/
theorem Looks.carries {I : Workspace → Prop} {step : Build α} {P : α → Prop}
    (h : Looks step P) : Carries I step P := by
  intro w a w' hw ha
  obtain ⟨rfl, hp⟩ := h w a w' ha
  exact ⟨hw, hp⟩

/-- The step keeps the workspace to the standard, and what it gives has
a property. -/
abbrev Upholds (S : Standard) (step : Build α) (P : α → Prop) : Prop :=
  Carries (Workspace.Meets S) step P

/-- Counters hold no types. -/
theorem Tallies.upholds {step : Build α} (h : Tallies step) : Upholds S step fun _ => True := by
  intro w a w' hw ha
  obtain ⟨counters, rfl⟩ := h w a w' ha
  exact ⟨hw.onCounters counters, trivial⟩

/-- What is found in the scopes has a type that meets the standard. -/
theorem resolve_upholds (name : String) :
    Upholds S (resolve name) fun found => ∀ s ∈ found, S.Allows s.type := by
  rintro w _ _ hw ⟨⟩
  obtain ⟨hscopes, hfound⟩ := hw.scopes.resolve name
  exact ⟨hw.onScopes hscopes, hfound⟩

/-- The level that is closed was one of those open. -/
theorem leave_upholds : Upholds S leave fun captured => captured.scope.Meets S := by
  intro w captured w' hw h
  obtain ⟨parent, rest, entry, entries, houter, -, rfl, rfl⟩ := leave_eq_ok h
  obtain ⟨hcurrent, hall⟩ := List.forall_mem_cons.mp hw.scopes.all
  rw [houter] at hall
  exact ⟨⟨⟨hall, hw.scopes.trackers⟩, hw.locals, hw.frames⟩, hcurrent⟩

/-- A level for a type holds what the type does. -/
theorem push_upholds (type : Option DataType) (mode : FoldMode) (h : ∀ t ∈ type, S.Allows t) :
    Upholds S (onContext (·.push type mode)) fun _ => True := by
  rintro w _ _ hw ⟨⟩
  exact ⟨⟨hw.scopes.push h, hw.locals, hw.frames⟩, trivial⟩

-- ============================================================ calls

/-- A call of a builtin meets the standard if its operands and its type
do and all its fixed arguments are there. -/
theorem callBuiltin_upholds {link : Signature} {args : List Node} {type : DataType}
    (hfixed : link.arity ≤ args.length) (hargs : AllHave (Node.Meets S) args)
    (htype : S.Allows type) :
    Upholds S (callBuiltin link args type) (Everywhere (Node.Meets S)) := by
  have hcall : Upholds S (noteWindow link >>= fun _ => allocateFor link >>= fun slot =>
      pure (Node.call link args type slot)) (Everywhere (Node.Meets S)) := by
    refine (noteWindow_tallies link).upholds.bind fun _ _ => ?_
    refine (allocateFor_tallies link).upholds.bind fun slot _ => .pure ?_
    exact Node.everywhere_of_type htype rfl rfl rfl nofun (Nat.zero_le _) hargs
  have hvariadic : Upholds S (pure (Node.variadic link args type)) (Everywhere (Node.Meets S)) :=
    .pure (Node.everywhere_of_type htype rfl rfl rfl nofun hfixed hargs)
  rw [callBuiltin_eq]
  split
  · exact .fail _
  · exact hvariadic
  · exact hvariadic
  · exact hcall
  · exact hcall

/-- A selector makes a value of the type that was declared. -/
theorem select_upholds {user : UserType} {args : List Node} (huser : S.Allows (.user user))
    (hargs : AllHave (Node.Meets S) args) :
    Upholds S (select user args) (Everywhere (Node.Meets S)) := by
  unfold select
  split
  · exact .fail _
  · split
    · exact .fail _
    · exact .pure (Node.everywhere_of_type huser rfl rfl rfl nofun (Nat.zero_le _) hargs)

/-- A function returns what it was declared to return. -/
theorem callEntry_upholds {symbol : Symbol} (hs : symbol.Meets S) (name : String)
    {args : List Node} (hargs : AllHave (Node.Meets S) args) :
    Upholds S (callEntry symbol name args) (Everywhere (Node.Meets S)) := by
  unfold callEntry
  split
  · refine .ofExcept_bind fun resolved hresolved => ?_
    have htype := hs.settles.resolve hargs.allow_dataTypes hresolved
    refine (allocateFor_tallies _).upholds.bind fun slot _ => .pure ?_
    exact Node.everywhere_of_type htype rfl rfl rfl nofun (Nat.zero_le _) hargs
  · split
    · exact select_upholds (‹symbol.type = _› ▸ hs.type) hargs
    · exact .fail _
  · exact .fail _

section

variable {catalog : Catalog} (hcatalog : catalog.Meets S)
include hcatalog

/-- What a call returns comes from its operands or its declaration, and
both meet the standard. -/
theorem call_upholds (name : String) {args : List Node} (hargs : AllHave (Node.Meets S) args) :
    Upholds S (call catalog name args) (Everywhere (Node.Meets S)) := by
  unfold call
  split
  · refine .ofExcept_bind fun resolved hresolved => ?_
    have hsettles := Builtin.find?_settles S ‹_›
    have hfixed := Symbol.arity_le_of_resolve hresolved
    rw [List.length_map] at hfixed
    exact callBuiltin_upholds hfixed hargs (hsettles.resolve hargs.allow_dataTypes hresolved)
  · split
    · exact callEntry_upholds (hcatalog.find? ‹_›) name hargs
    · refine .get_bind fun w _ => ?_
      split
      · exact .fail _
      · exact .fail _

/-- The minus of a literal is a literal, and that of anything else a call. -/
theorem negate_upholds {arg : Node} (harg : arg.Everywhere (Node.Meets S)) :
    Upholds S (negate catalog arg) (Everywhere (Node.Meets S)) := by
  unfold negate
  split
  · exact .pure (Node.everywhere_literal rfl nofun)
  · exact call_upholds hcatalog "neg" (Node.allHave_singleton.mpr harg)

/-- An operator is a call of two operands. -/
theorem binary_upholds (op : String) {lhs rhs : Node} (hl : lhs.Everywhere (Node.Meets S))
    (hr : rhs.Everywhere (Node.Meets S)) :
    Upholds S (binary catalog op lhs rhs) (Everywhere (Node.Meets S)) := by
  unfold binary
  split
  · exact .fail _
  · exact call_upholds hcatalog op
      (List.forall_mem_cons.mpr ⟨hl, List.forall_mem_singleton.mpr hr⟩)

/-- Each join of a chain is between trees that meet the standard. -/
theorem combine_upholds {g : Grouping (String × Nat) Node}
    (hg : AllHave (Node.Meets S) g.operands) :
    Upholds S (g.combine fun lhs op rhs => located op.2 (binary catalog op.1 lhs rhs))
      (Everywhere (Node.Meets S)) := by
  induction g with
  | operand a => exact .pure (Node.allHave_singleton.mp hg)
  | joined left op right ihl ihr =>
      obtain ⟨hleft, hright⟩ := List.forall_mem_append.mp hg
      refine (ihl hleft).bind fun l hl => (ihr hright).bind fun r hr => ?_
      exact .located (binary_upholds hcatalog op.1 hl hr)

/-- A chain is joined as its grouping says. -/
theorem joinChain_upholds {first : Node} {rest : List ((String × Nat) × Node)}
    (hfirst : first.Everywhere (Node.Meets S))
    (hrest : ∀ op ∈ rest, op.2.Everywhere (Node.Meets S)) :
    Upholds S (joinChain catalog first rest) (Everywhere (Node.Meets S)) := by
  rw [joinChain_eq]
  refine combine_upholds hcatalog ?_
  rw [Grouping.operands_ofChain]
  exact List.forall_mem_cons.mpr ⟨hfirst, List.forall_mem_map.mpr hrest⟩

end

/-- A fold has the type of its operator, for operands of one type. -/
theorem fold_upholds (op : String) {arg : Node} (harg : arg.Everywhere (Node.Meets S)) :
    Upholds S (fold op arg) (Everywhere (Node.Meets S)) := by
  unfold fold
  split
  · exact .fail _
  · rename_i symbol hfind
    refine .ofExcept_bind fun resolved hresolved => ?_
    have hsettles := Builtin.find?_settles S (Option.filter_eq_some_iff.mp hfind).1
    -- the operator is resolved for two operands of the type that is folded
    have hpair : ∀ t ∈ [arg.dataType, arg.dataType], S.Allows t :=
      List.forall_mem_cons.mpr
        ⟨harg.allows_dataType, List.forall_mem_singleton.mpr harg.allows_dataType⟩
    have htype := hsettles.resolve hpair hresolved
    refine (allocate_tallies _ _).upholds.bind fun slot _ => .pure ?_
    exact Node.everywhere_of_type htype rfl rfl rfl nofun (Nat.zero_le _)
      (Node.allHave_singleton.mpr harg)

/-- A column of a tuple and a component of a value have the types that the
heading gives them. -/
theorem member_upholds {base : Node} (hbase : base.Everywhere (Node.Meets S)) (name : String) :
    Upholds S (member base name) (Everywhere (Node.Meets S)) := by
  have htype := hbase.allows_dataType
  unfold member
  split
  · rename_i heading hdata
    rw [hdata] at htype
    split
    · have hcolumn := Standard.get? (S.tuple.mp htype) ‹_›
      exact .pure (Node.everywhere_of_type hcolumn rfl rfl rfl nofun (Nat.zero_le _)
        (Node.allHave_singleton.mpr hbase))
    · exact .fail _
  · rename_i user hdata
    rw [hdata] at htype
    split
    · have hcolumn := Standard.get? (S.user htype) ‹_›
      exact .pure (Node.everywhere_of_type hcolumn rfl rfl rfl nofun (Nat.zero_le _)
        (Node.allHave_singleton.mpr hbase))
    · exact .fail _
  · exact .fail _

-- ============================================================ names

/-- A use of a block binding copies it; a copy states the types of the
value. -/
theorem useLocal_upholds (name : String) (slot : Nat) :
    Upholds S (useLocal name slot) (Everywhere (Node.Meets S)) := by
  refine .get_bind fun w hw => ?_
  split
  · exact .fail _
  · rename_i bound hbound
    obtain ⟨hvalue, hreads⟩ := hw.locals bound (List.mem_of_getElem? hbound)
    intro w n w' hw h
    obtain ⟨u, w₁, hscopes, h⟩ := bind_eq_ok.mp h
    obtain ⟨copy, w₂, hcopy, h⟩ := bind_eq_ok.mp h
    cases h
    have hw₁ : w₁.Meets S := by
      cases hscopes
      exact hw.onScopes (hw.scopes.recordAll hreads)
    obtain ⟨⟨counters, rfl⟩, hrelated⟩ := relocate_related
      (R := fun m m' => m.Everywhere (Node.Meets S) → m'.Everywhere (Node.Meets S))
      (fun _ _ hbare => Node.everywhere_of_copy (fun h hlength hn => hn.copy h hlength) hbare) hcopy
    refine ⟨hw₁.onCounters counters, ?_⟩
    have hoperands : AllHave (Node.Meets S) [copy] :=
      Node.allHave_singleton.mpr (hrelated hvalue)
    exact Node.everywhere_of_segments (fun _ h => (nomatch h)) rfl rfl nofun (Nat.zero_le _)
      hoperands fun _ h => absurd h List.not_mem_nil

/-- What is found in a scope is loaded as declared, or its value is copied. -/
theorem useSymbol_upholds {symbol : Symbol} (h : S.Allows symbol.type) :
    Upholds S (useSymbol symbol) (Everywhere (Node.Meets S)) := by
  unfold useSymbol
  split
  · exact .pure (Node.everywhere_variable h)
  · exact .pure (Node.everywhere_variable h)
  · exact .pure (Node.everywhere_variable h)
  · exact .pure (Node.everywhere_variable h)
  · exact useLocal_upholds _ _
  · exact .fail _

/-- A name is found in the scopes or in the catalog. -/
theorem useName_upholds {catalog : Catalog} (hcatalog : catalog.Meets S) (name : String) :
    Upholds S (useName catalog name) (Everywhere (Node.Meets S)) := by
  refine (resolve_upholds name).bind fun found hfound => ?_
  cases found with
  | some symbol => exact useSymbol_upholds (hfound symbol rfl)
  | none =>
      show Upholds S (useGlobal catalog name) _
      unfold useGlobal
      split
      · split
        · exact .pure (Node.everywhere_variable (hcatalog.find? ‹_›).type)
        · exact .pure (Node.everywhere_variable (S.plain rfl rfl))
        · exact .fail _
      · split
        · exact .fail _
        · exact .fail _

/-- The current row reads all its columns, one after another. -/
theorem currentRow_upholds : Upholds S currentRow (Everywhere (Node.Meets S)) := by
  have hreads (names : List String) : Upholds S (forIn names PUnit.unit fun name _ =>
      discard (resolve name) >>= fun _ => pure (ForInStep.yield PUnit.unit)) fun _ => True := by
    induction names with
    | nil => exact .pure trivial
    | cons name names ih =>
        rw [List.forIn_cons]
        refine ((resolve_upholds name).discard.bind fun _ _ =>
          .pure (P := (· = ForInStep.yield PUnit.unit)) rfl).bind ?_
        rintro _ rfl
        exact ih
  refine .get_bind fun w hw => ?_
  split
  · exact .fail _
  · rename_i heading hheading
    refine (hreads _).bind fun _ _ => .pure ?_
    have htype := S.tuple.mpr (hw.scopes.heading? hheading)
    exact Node.everywhere_of_type htype rfl rfl rfl nofun (Nat.zero_le _) Node.allHave_nil

-- =================================================== rows and tables

/-- The heading of a row has the types of its values. -/
theorem rowHeading_allowed {fields : List (String × Node)} {out heading : Heading}
    (hfields : ∀ field ∈ fields, field.2.Everywhere (Node.Meets S)) (hout : S.AllowsHeading out)
    (h : rowHeading out fields = .ok heading) : S.AllowsHeading heading := by
  induction fields generalizing out with
  | nil =>
      cases h
      exact hout
  | cons field rest ih =>
      obtain ⟨hfield, hrest⟩ := List.forall_mem_cons.mp hfields
      obtain ⟨next, hpush, h⟩ := except_bind_eq_ok.mp h
      exact ih hrest (S.push hout hfield.allows_dataType hpush) h

/-- A row has the heading of its values. -/
theorem row_upholds {fields : List (String × Node)}
    (hfields : ∀ field ∈ fields, field.2.Everywhere (Node.Meets S)) :
    Upholds S (row fields) (Everywhere (Node.Meets S)) := by
  refine .ofExcept_bind fun heading hheading => .pure ?_
  have hallowed := rowHeading_allowed hfields S.nil hheading
  exact Node.everywhere_row hallowed (List.forall_mem_map.mpr hfields)

/-- All rows get the heading of the first one, and keep their values. -/
theorem rowsLike_meet {first : Heading} (hfirst : S.AllowsHeading first)
    {rows : List (List (String × Node))}
    (hrows : ∀ fields ∈ rows, ∀ field ∈ fields, field.2.Everywhere (Node.Meets S))
    {nodes : List Node} (h : rowsLike first rows = .ok nodes) : AllHave (Node.Meets S) nodes := by
  induction rowsLike_eq_ok.mp h with
  | nil => exact Node.allHave_nil
  | cons hrow hothers ih =>
      obtain ⟨heading, -, -, rfl⟩ := hrow
      obtain ⟨hfields, hrest⟩ := List.forall_mem_cons.mp hrows
      refine List.forall_mem_cons.mpr ⟨?_, ih hrest (rowsLike_eq_ok.mpr hothers)⟩
      refine Node.everywhere_row hfirst fun n hn => ?_
      obtain ⟨field, hfield, rfl⟩ := reorder_mem hn
      exact hfields field hfield

/-- A table has the heading of its first row. -/
theorem table_upholds {rows : List (List (String × Node))}
    (hrows : ∀ fields ∈ rows, ∀ field ∈ fields, field.2.Everywhere (Node.Meets S)) :
    Upholds S (table rows) (Everywhere (Node.Meets S)) := by
  cases rows with
  | nil => exact .pure (Node.everywhere_table S.nil Node.allHave_nil)
  | cons fields rest =>
      obtain ⟨hfields, hrest⟩ := List.forall_mem_cons.mp hrows
      refine .ofExcept_bind fun heading hheading => .ofExcept_bind fun nodes hnodes => .pure ?_
      have hallowed := rowHeading_allowed hfields S.nil hheading
      have hrow := Node.everywhere_row hallowed (List.forall_mem_map.mpr hfields)
      exact Node.everywhere_table hallowed
        (List.forall_mem_cons.mpr ⟨hrow, rowsLike_meet hallowed hrest hnodes⟩)

-- ===================================================== restrictions

/-- The level of a predicate is for the columns of the base. -/
theorem enterRestrict_upholds {base : Node} (hbase : base.Everywhere (Node.Meets S)) :
    Upholds S (enterRestrict base) fun _ => True := by
  unfold enterRestrict
  split
  · refine push_upholds _ .disabled ?_
    rintro _ ⟨⟩
    exact hbase.allows_dataType
  · exact .fail _

/-- The reads of a predicate are those of the scope that it closes. -/
theorem restrict_upholds {base predicate : Node} (hbase : base.Everywhere (Node.Meets S))
    (hpredicate : predicate.Everywhere (Node.Meets S)) :
    Upholds S (restrict base predicate) (Everywhere (Node.Meets S)) := by
  intro w n w' hw h
  obtain ⟨captured, hleave, rfl⟩ := restrict_eq_ok h
  obtain ⟨hw', hscope⟩ := leave_upholds w captured w' hw hleave
  refine ⟨hw', Node.everywhere_of_segments (fun _ h => (nomatch h)) rfl rfl nofun (Nat.zero_le _)
    (Node.allHave_singleton.mpr hbase) ?_⟩
  exact List.forall_mem_singleton.mpr ⟨hscope.lookup, hpredicate⟩

-- =========================================================== blocks

/-- A binding begins with a tracker that has seen nothing. -/
theorem beginLocal_upholds : Upholds S beginLocal fun _ => True := by
  rintro w _ _ hw ⟨⟩
  refine ⟨⟨⟨hw.scopes.all, ?_⟩, hw.locals, hw.frames⟩, trivial⟩
  exact List.forall_mem_cons.mpr ⟨fun _ h => absurd h List.not_mem_nil, hw.scopes.trackers⟩

/-- Counters hold no types. -/
theorem restoreCounter_upholds : Upholds S restoreCounter fun _ => True := by
  rintro w _ _ hw ⟨⟩
  dsimp only
  split
  · exact ⟨hw, trivial⟩
  · exact ⟨⟨hw.scopes, hw.locals, hw.frames⟩, trivial⟩

/-- What is bound keeps its value and the reads noted for it. -/
theorem bindLocal_upholds (name : String) {value : Node}
    (hvalue : value.Everywhere (Node.Meets S)) :
    Upholds S (bindLocal name value) fun _ => True := by
  have hreads : Upholds S (onScopes (·.takeReads)) (Read.AllMeet S) := by
    rintro w _ _ hw ⟨⟩
    obtain ⟨hseen, hscopes⟩ := hw.scopes.takeReads
    exact ⟨hw.onScopes hscopes, hseen⟩
  refine .get_bind fun w _ => hreads.bind fun reads hreads => ?_
  refine restoreCounter_upholds.bind fun _ _ => .get_bind fun w₁ hw₁ => ?_
  refine .ofExcept_bind fun scopes hadd => ?_
  have hscopes := hw₁.scopes.add hvalue.allows_dataType hadd
  rintro w₂ _ _ hw₂ ⟨⟩
  refine ⟨⟨hscopes, ?_, hw₂.frames⟩, trivial⟩
  refine List.forall_mem_append.mpr ⟨hw₂.locals, List.forall_mem_singleton.mpr ⟨hvalue, ?_⟩⟩
  exact fun r hr => hreads r (List.mem_filter.mp hr).1

/-- A block states no type, and its bindings are part of it. -/
theorem block_upholds (first : Nat) {body : Node} (hbody : body.Everywhere (Node.Meets S)) :
    Upholds S (block first body) (Everywhere (Node.Meets S)) := by
  intro w n w' hw h
  obtain ⟨captured, w₁, hleave, rfl, rfl⟩ := block_eq_ok h
  obtain ⟨hw₁, -⟩ := leave_upholds w captured w₁ hw hleave
  have hlocals (l : LocalSlot) (hl : l ∈ w₁.locals) := hw₁.locals l hl
  refine ⟨⟨hw₁.scopes, fun l hl => hlocals l (List.mem_of_mem_take hl), hw₁.frames⟩, ?_⟩
  rw [Node.everywhere_iff]
  refine ⟨⟨fun _ h => (nomatch h), fun _ h => absurd h List.not_mem_nil, nofun, nofun,
    Nat.zero_le _⟩,
    List.forall_mem_singleton.mpr hbody, ?_, fun _ h => absurd h List.not_mem_nil⟩
  -- the values of a block are what its slots held
  intro value hvalue
  obtain ⟨bound, hbound, rfl⟩ := List.mem_map.mp hvalue
  obtain ⟨l, hl, rfl⟩ := List.mem_map.mp hbound
  exact (hlocals l (List.mem_of_mem_drop hl)).1

-- ====================================================== field lists

/-- A list is open over the type of its base. -/
theorem openFrame_upholds {base : Node} (hbase : base.Everywhere (Node.Meets S))
    (allBut : Bool) : Upholds S (openFrame base allBut) fun _ => True := by
  rintro w _ _ hw ⟨⟩
  exact ⟨⟨hw.scopes, hw.locals,
    List.forall_mem_cons.mpr ⟨hbase.allows_dataType, hw.frames⟩⟩, trivial⟩

/-- A list that follows another one has the same level. -/
theorem chainFields_upholds {base : Node} (hbase : base.Everywhere (Node.Meets S))
    (allBut : Bool) : Upholds S (chainFields base allBut) fun _ => True := by
  unfold chainFields
  split
  · exact (Carries.fail _ (P := fun _ => True)).bind fun _ _ => openFrame_upholds hbase allBut
  · exact openFrame_upholds hbase allBut

/-- A list that stands alone has a level for the columns of its base. -/
theorem enterFields_upholds {base : Node} (hbase : base.Everywhere (Node.Meets S))
    (allBut : Bool) : Upholds S (enterFields base allBut) fun _ => True := by
  have hopen : Upholds S (onContext (·.push base.dataType .enabled) >>= fun _ =>
      openFrame base allBut) fun _ => True := by
    refine (push_upholds _ .enabled ?_).bind fun _ _ => openFrame_upholds hbase allBut
    rintro _ ⟨⟩
    exact hbase.allows_dataType
  unfold enterFields
  split
  · exact (Carries.fail _ (P := fun _ => True)).bind fun _ _ => hopen
  · exact hopen

/-- The list that is open is one of those noted. -/
theorem frame_upholds : Upholds S frame fun f => S.Allows f.base := by
  intro w f w' hw h
  obtain ⟨rest, hframes, rfl⟩ := frame_eq_ok h
  refine ⟨hw, hw.frames f ?_⟩
  rw [hframes]
  exact List.mem_cons_self

/-- A key is loaded with the type that it was found with. -/
theorem orderKey_upholds (name : String) (descending grouped : Bool) :
    Upholds S (orderKey name descending grouped) (Segment.Meets S) := by
  refine (resolve_upholds name).bind fun found hfound => ?_
  cases found with
  | none => exact .fail _
  | some symbol =>
      dsimp only
      split
      · have hload := Segment.meets_load name (hfound symbol rfl)
        exact .pure ⟨hload.lookup, hload.body⟩
      · exact .fail _

/-- Keys are loads, one after another. -/
theorem orderKeys_upholds (keys : List OrderKey) :
    Upholds S (orderKeys keys) fun segments => ∀ s ∈ segments, s.Meets S := by
  induction keys with
  | nil => exact .pure fun _ h => absurd h List.not_mem_nil
  | cons key rest ih =>
      refine (orderKey_upholds _ _ _).located.bind fun segment hsegment => ?_
      exact ih.map fun others hothers => List.forall_mem_cons.mpr ⟨hsegment, hothers⟩

/-- A field has a level for the columns of the base. -/
theorem beginField_upholds : Upholds S beginField fun _ => True := by
  refine frame_upholds.bind fun f hf => (push_upholds _ .inherit ?_).bind fun _ _ => ?_
  · rintro _ ⟨⟩
    exact hf
  · rintro w _ _ hw ⟨⟩
    exact ⟨hw.onCounters _, trivial⟩

/-- A field reads what its level has recorded. -/
theorem endField_upholds (name : String) {value : Node}
    (hvalue : value.Everywhere (Node.Meets S)) :
    Upholds S (endField name value) (Segment.Meets S) := by
  intro w segment w' hw h
  obtain ⟨captured, hleave, rfl⟩ := endField_eq_ok h
  obtain ⟨hw', hscope⟩ := leave_upholds w captured w' hw hleave
  exact ⟨hw', hscope.lookup, hvalue⟩

/-- An item that keeps or renames a column puts out a column of the base,
so the segment that loads it has that column's type and not the
placeholder it would fall back on. -/
theorem itemType_load {heading : Heading} (hheading : S.AllowsHeading heading) {name : String}
    {type : DataType} (h : itemType heading (.project name) = .ok type) :
    S.Allows type ∧ itemSegment.typeIn heading name = type := by
  unfold itemSegment.typeIn
  cases hget : Heading.get? heading name with
  | none =>
      simp only [itemType, hget] at h
      cases h
  | some column =>
      simp only [itemType, hget] at h
      cases h
      exact ⟨Standard.get? hheading hget, rfl⟩

/-- What an item puts out has a type that meets the standard, and so has
the segment for it. -/
theorem item_meets {heading : Heading} (hheading : S.AllowsHeading heading) {item : FieldItem}
    {type : DataType} (hitem : ∀ s ∈ item.segment?, s.Meets S)
    (h : itemType heading item = .ok type) :
    S.Allows type ∧ (itemSegment heading item).Meets S := by
  cases item with
  | project name =>
      obtain ⟨hallowed, hsame⟩ := itemType_load hheading h
      refine ⟨hallowed, Segment.meets_load name ?_⟩
      rwa [hsame]
  | rename source target =>
      obtain ⟨hallowed, hsame⟩ := itemType_load hheading h
      have hsegment := Segment.meets_load source (hsame ▸ hallowed)
      exact ⟨hallowed, hsegment.lookup, hsegment.body⟩
  | extend segment =>
      cases h
      have hsegment := hitem segment rfl
      exact ⟨hsegment.body.allows_dataType, hsegment⟩

/-- The columns of a list's result, and the segments that compute
them. -/
theorem outputHeading_allowed {heading out output : Heading} (hheading : S.AllowsHeading heading)
    {items : List FieldItem} (hitems : ∀ s ∈ items.filterMap FieldItem.segment?, s.Meets S)
    (hout : S.AllowsHeading out) (h : outputHeading heading out items = .ok output) :
    S.AllowsHeading output ∧ ∀ item ∈ items, (itemSegment heading item).Meets S := by
  induction items generalizing out with
  | nil =>
      cases h
      exact ⟨hout, fun _ h => absurd h List.not_mem_nil⟩
  | cons item rest ih =>
      obtain ⟨type, htype, h⟩ := except_bind_eq_ok.mp h
      obtain ⟨next, hpush, h⟩ := except_bind_eq_ok.mp h
      have hrest : ∀ s ∈ rest.filterMap FieldItem.segment?, s.Meets S := fun s hs => by
        obtain ⟨other, hother, hsome⟩ := List.mem_filterMap.mp hs
        exact hitems s (List.mem_filterMap.mpr ⟨other, List.mem_cons_of_mem _ hother, hsome⟩)
      have hfirst : ∀ s ∈ item.segment?, s.Meets S := fun s hs =>
        hitems s (List.mem_filterMap.mpr ⟨item, List.mem_cons_self, hs⟩)
      obtain ⟨hallowed, hsegment⟩ := item_meets hheading hfirst htype
      obtain ⟨houtput, hsegments⟩ := ih hrest (S.push hout hallowed hpush) h
      exact ⟨houtput, List.forall_mem_cons.mpr ⟨hsegment, hsegments⟩⟩

/-- Whatever strategy a list is carried out with, its node states the
type of the result and computes with the segments of the list. -/
theorem fieldNode_meets {base : Node} {heading output : Heading} {type : DataType}
    {order : List Segment} {items : List FieldItem} (accums : Nat)
    (hbase : base.Everywhere (Node.Meets S)) (houtput : S.AllowsHeading output)
    (htype : S.Allows type) (horder : ∀ s ∈ order, s.Meets S)
    (hitems : ∀ item ∈ items, (itemSegment heading item).Meets S) :
    (fieldNode base heading output type order items accums).Everywhere (Node.Meets S) := by
  have hoperands : AllHave (Node.Meets S) [base] := Node.allHave_singleton.mpr hbase
  unfold fieldNode
  split
  · exact Node.everywhere_of_segments (fun _ h => (nomatch h)) rfl rfl nofun (Nat.zero_le _)
      hoperands horder
  · split
    · exact Node.everywhere_of_heading htype rfl houtput rfl rfl nofun (Nat.zero_le _) hoperands
    · exact Node.everywhere_of_type htype rfl rfl rfl nofun (Nat.zero_le _) hoperands
    · have hsegments : ∀ s ∈ order ++ items.map (itemSegment heading), s.Meets S :=
        List.forall_mem_append.mpr ⟨horder, List.forall_mem_map.mpr hitems⟩
      refine Node.everywhere_of_segments ?_ rfl rfl nofun (Nat.zero_le _) hoperands hsegments
      rintro _ ⟨⟩
      exact htype

/-- A list that hands its level on seeds it anew with the columns of the
result. -/
theorem closeFields_upholds (keepOpen : Bool) {type : DataType} (htype : S.Allows type) :
    Upholds S (closeFields keepOpen type) fun _ => True := by
  cases keepOpen with
  | true =>
      intro w c w' hw h
      obtain ⟨k, w₁, hk, h⟩ := bind_eq_ok.mp h
      cases hk
      obtain ⟨u, w₂, hreenter, h⟩ := bind_eq_ok.mp h
      cases h
      obtain ⟨scope, hreenter⟩ := discard_eq_ok.mp hreenter
      refine ⟨?_, trivial⟩
      obtain ⟨⟨⟨current, outer, trackers⟩, counters⟩, locals, pending, frames⟩ := w
      cases outer with
      | nil => exact absurd hreenter fail_ne_ok
      | cons parent rest =>
          cases hreenter
          obtain ⟨-, hall⟩ := List.forall_mem_cons.mp hw.scopes.all
          have hscopes : Scopes.Meets S ⟨parent, rest, trackers⟩ := ⟨hall, hw.scopes.trackers⟩
          refine ⟨hscopes.push ?_, hw.locals, hw.frames⟩
          rintro _ ⟨⟩
          exact htype
  | false => exact leave_upholds.map fun _ _ => trivial

/-- A list has the heading of what it puts out, made of kept columns and
computed ones. -/
theorem finishFields_upholds {base : Node} {order : List Segment}
    {entries : List (FieldSpec Segment)} (keepOpen : Bool)
    (hbase : base.Everywhere (Node.Meets S)) (horder : ∀ s ∈ order, s.Meets S)
    (hentries : ∀ s ∈ FieldSpec.computed entries, s.Meets S) :
    Upholds S (finishFields base order entries keepOpen) (Everywhere (Node.Meets S)) := by
  refine frame_upholds.bind fun f hf => ?_
  -- taking the frame off asks for nothing
  have htail : Upholds S
      (modify fun w : Workspace => { w with frames := w.frames.tail } : Build Unit)
      fun _ => True := by
    rintro w _ _ hw ⟨⟩
    exact ⟨⟨hw.scopes, hw.locals, fun g hg => hw.frames g (List.mem_of_mem_tail hg)⟩, trivial⟩
  refine htail.bind fun _ _ => ?_
  dsimp only
  intro w n w' hw h
  obtain ⟨items, w₁, hitems, hrest⟩ := bind_eq_ok.mp h
  obtain ⟨output, w₂, houtput, hrest⟩ := bind_eq_ok.mp hrest
  obtain ⟨hheading, rfl⟩ := ofExcept_eq_ok.mp houtput
  -- the items of the output hold the computed segments, in another order
  obtain ⟨rfl, hperm⟩ := fieldItems_eq_ok hitems (outputHeading_eq_ok hheading List.nodup_nil)
  obtain ⟨hallowed, hsegments⟩ := outputHeading_allowed (Standard.headingD hf)
    (fun s hs => hentries s (hperm.mem_iff.mp hs)) S.nil hheading
  have htype : S.Allows (if f.base.isRelation then DataType.relation output
      else .tuple output) := by
    split
    · exact S.relation.mpr hallowed
    · exact S.tuple.mpr hallowed
  have hclose := (closeFields_upholds keepOpen htype).bind fun c _ =>
    Carries.pure (fieldNode_meets c.total hbase hallowed htype horder hsegments)
  exact hclose _ n w' hw hrest

-- ==================================================== written types

section

variable {catalog : Catalog}

/-- A named type is a primitive one or an entry of the catalog. -/
theorem namedType_allowed (hcatalog : catalog.Meets S) {name : String} {type : DataType}
    (h : namedType catalog name = .ok type) : S.Allows type := by
  unfold namedType at h
  split at h
  · cases h
    exact Standard.ofName? ‹_›
  · split at h
    · split at h
      · cases h
        exact (hcatalog.find? ‹_›).type
      · cases h
    · cases h

theorem makeHeading_allowed {columns : List Column} {h : Heading}
    (hcolumns : ∀ c ∈ columns, S.Allows c.type) (hh : makeHeading columns = .ok h) :
    S.AllowsHeading h :=
  Standard.pushAll S.nil hcolumns (mapError_eq_ok.mp hh)

mutual

/-- A written type is put together from named ones. -/
theorem typeOf_allowed (hcatalog : catalog.Meets S) : ∀ {t : TypeExpr} {type : DataType},
    typeOf catalog t = .ok type → S.Allows type
  | .named _ _, _, h => namedType_allowed hcatalog (mapError_eq_ok.mp h)
  | .tuple columns, _, h => by
      obtain ⟨cs, hcs, h⟩ := except_bind_eq_ok.mp h
      obtain ⟨heading, hheading, h⟩ := except_bind_eq_ok.mp h
      cases h
      exact S.tuple.mpr (makeHeading_allowed (columnsOf_allowed hcatalog hcs) hheading)
  | .relation columns, _, h => by
      obtain ⟨cs, hcs, h⟩ := except_bind_eq_ok.mp h
      obtain ⟨heading, hheading, h⟩ := except_bind_eq_ok.mp h
      cases h
      exact S.relation.mpr (makeHeading_allowed (columnsOf_allowed hcatalog hcs) hheading)

theorem columnsOf_allowed (hcatalog : catalog.Meets S) :
    ∀ {columns : List (String × TypeExpr)} {cs : List Column}, columnsOf catalog columns = .ok cs →
      ∀ c ∈ cs, S.Allows c.type
  | [], _, h => by
      cases h
      exact fun _ h => absurd h List.not_mem_nil
  | (_, _) :: _, _, h => by
      obtain ⟨type, htype, h⟩ := except_bind_eq_ok.mp h
      obtain ⟨rest, hrest, h⟩ := except_bind_eq_ok.mp h
      cases h
      exact List.forall_mem_cons.mpr
        ⟨typeOf_allowed hcatalog htype, columnsOf_allowed hcatalog hrest⟩

end

/-- A written heading has the types that were looked up. -/
theorem heading_upholds (hcatalog : catalog.Meets S) (columns : List (String × TypeExpr)) :
    Upholds S (heading catalog columns) S.AllowsHeading := by
  unfold heading
  split
  · rename_i h hh
    obtain ⟨cs, hcs, hh⟩ := except_bind_eq_ok.mp hh
    exact .pure (makeHeading_allowed (columnsOf_allowed hcatalog hcs) hh)
  · exact .throw _

-- ========================================================= the walk

mutual

/-- The tree of an expression meets the standard. -/
theorem expression_upholds (hcatalog : catalog.Meets S) (keepOpen : Bool) :
    ∀ e : Expr, e.Everywhere (Expr.Meets S) →
      Upholds S (expression catalog keepOpen e) (Everywhere (Node.Meets S))
  | .number _ _, _ | .text _ _, _ | .bool _ _, _ => .pure (Node.everywhere_literal rfl nofun)
  -- the one literal that a standard may refuse is the moment as it was written
  | .time _ moment, he => by
      have htime : S.AllowsTime moment := he _ .here
      refine .pure (Node.everywhere_literal rfl ?_)
      rintro _ ⟨⟩
      exact htime
  | .name _ name, _ => .located (useName_upholds hcatalog name)
  | .currentRow _, _ => .located currentRow_upholds
  | .call _ name args, he =>
      .located ((expressions_upholds hcatalog args fun _ h => he.part h).bind fun _ hargs =>
        call_upholds hcatalog name hargs)
  | .fold _ op arg, he =>
      .located ((expression_upholds hcatalog false arg (he.part List.mem_cons_self)).bind
        fun _ harg => fold_upholds op harg)
  -- the walk splits as `expression` does; what is asked of the tree is handed to
  -- its parts
  | .chain _ first steps, he => by
      have hsteps (s : Step) (hs : s ∈ steps) : s.operand.Everywhere (Expr.Meets S) :=
        he.part (List.mem_cons_of_mem _ (List.mem_map_of_mem hs))
      refine .located ((expression_upholds hcatalog false first (he.part List.mem_cons_self)).bind
        fun _ hfirst => ?_)
      exact (operands_upholds hcatalog steps hsteps).bind fun _ hrest =>
        joinChain_upholds hcatalog hfirst hrest
  | .not _ arg, he =>
      .located ((expression_upholds hcatalog false arg (he.part List.mem_cons_self)).bind
        fun _ harg => call_upholds hcatalog "not" (Node.allHave_singleton.mpr harg))
  | .neg _ arg, he =>
      .located ((expression_upholds hcatalog false arg (he.part List.mem_cons_self)).bind
        fun _ harg => negate_upholds hcatalog harg)
  | .member _ base name, he =>
      .located ((expression_upholds hcatalog false base (he.part List.mem_cons_self)).bind
        fun _ hbase => member_upholds hbase name)
  | .restrict _ base predicate, he => by
      have hpredicate : predicate.Everywhere (Expr.Meets S) :=
        he.part (List.mem_cons_of_mem _ List.mem_cons_self)
      refine .located ((expression_upholds hcatalog false base (he.part List.mem_cons_self)).bind
        fun _ hbase => (enterRestrict_upholds hbase).bind fun _ _ => ?_)
      exact (expression_upholds hcatalog false predicate hpredicate).bind fun _ hp =>
        restrict_upholds hbase hp
  -- a list that stays open is chained on; either way the same list follows
  | .fields _ base ⟨allBut, order, entries⟩, he => by
      have hentries (v : Expr) (hv : v ∈ entries.filterMap FieldEntry.value?) :
          v.Everywhere (Expr.Meets S) := he.part (List.mem_cons_of_mem _ hv)
      refine .located ((expression_upholds hcatalog true base (he.part List.mem_cons_self)).bind
        fun node hnode => ?_)
      have hlist : Upholds S (orderKeys order >>= fun keys => fieldEntries catalog entries >>=
          fun fields => finishFields node keys fields keepOpen) (Everywhere (Node.Meets S)) :=
        (orderKeys_upholds order).bind fun _ hkeys =>
          (fieldEntries_upholds hcatalog entries hentries).bind fun _ hfields =>
            finishFields_upholds keepOpen hnode hkeys hfields
      dsimp only
      split
      · exact (chainFields_upholds hnode allBut).bind fun _ _ => hlist
      · exact (enterFields_upholds hnode allBut).bind fun _ _ => hlist
  | .row _ bindings, he =>
      .located ((bindingValues_upholds hcatalog bindings fun _ h =>
        he.part (List.mem_map_of_mem h)).bind fun _ hfields => row_upholds hfields)
  | .table _ rows, he => by
      have hrows (row : List Binding) (hrow : row ∈ rows) (b : Binding) (hb : b ∈ row) :
          b.value.Everywhere (Expr.Meets S) :=
        he.part (List.mem_map_of_mem (List.mem_flatten_of_mem hrow hb))
      exact .located ((tableRows_upholds hcatalog rows hrows).bind fun _ hnodes =>
        table_upholds hnodes)
  | .emptyTable _ columns, _ =>
      .located ((heading_upholds hcatalog columns).map fun _ hheading =>
        Node.everywhere_table hheading Node.allHave_nil)
  | .block _ bindings body, he => by
      have henter : Upholds S enterBlock fun _ => True :=
        (push_upholds none .inherit nofun).bind fun _ _ => .get_bind fun _ _ => .pure trivial
      have hbindings := blockBindings_upholds hcatalog bindings fun b hb =>
        he.part (List.mem_cons_of_mem _ (List.mem_map_of_mem hb))
      have hbody := expression_upholds hcatalog false body (he.part List.mem_cons_self)
      exact .located (henter.bind fun first _ => hbindings.bind fun _ _ =>
        hbody.bind fun _ hnode => block_upholds first hnode)

/-- So do the trees of arguments, -/
theorem expressions_upholds (hcatalog : catalog.Meets S) :
    ∀ es : List Expr, (∀ e ∈ es, e.Everywhere (Expr.Meets S)) →
      Upholds S (expressions catalog es) (AllHave (Node.Meets S))
  | [], _ => .pure Node.allHave_nil
  | e :: rest, he => by
      obtain ⟨hfirst, hothers⟩ := List.forall_mem_cons.mp he
      exact (expression_upholds hcatalog false e hfirst).bind fun _ hnode =>
        (expressions_upholds hcatalog rest hothers).map fun _ hrest =>
          List.forall_mem_cons.mpr ⟨hnode, hrest⟩

/-- of the operands of a chain, -/
theorem operands_upholds (hcatalog : catalog.Meets S) :
    ∀ steps : List Step, (∀ s ∈ steps, s.operand.Everywhere (Expr.Meets S)) →
      Upholds S (operands catalog steps) fun ops => ∀ op ∈ ops, op.2.Everywhere (Node.Meets S)
  | [], _ => .pure fun _ h => absurd h List.not_mem_nil
  | ⟨_, _, operand⟩ :: rest, he => by
      obtain ⟨hfirst, hothers⟩ := List.forall_mem_cons.mp he
      exact (expression_upholds hcatalog false operand hfirst).bind fun _ hnode =>
        (operands_upholds hcatalog rest hothers).map fun _ hrest =>
          List.forall_mem_cons.mpr ⟨hnode, hrest⟩

/-- of the fields that a list computes, -/
theorem fieldEntries_upholds (hcatalog : catalog.Meets S) : ∀ entries : List FieldEntry,
    (∀ v ∈ entries.filterMap FieldEntry.value?, v.Everywhere (Expr.Meets S)) →
      Upholds S (fieldEntries catalog entries) fun fields =>
        ∀ s ∈ FieldSpec.computed fields, s.Meets S
  | [], _ => .pure fun _ h => absurd h List.not_mem_nil
  | .plain _ _ :: rest, he =>
      (fieldEntries_upholds hcatalog rest he).map fun _ hrest => hrest
  | .computed name mark value :: rest, he => by
      obtain ⟨hfirst, hothers⟩ := List.forall_mem_cons.mp he
      refine (renameSource?_looks value).carries.bind fun source _ => ?_
      cases source with
      | some source => exact (fieldEntries_upholds hcatalog rest hothers).map fun _ hrest => hrest
      | none =>
          have hvalue : Upholds S (beginField >>= fun _ => expression catalog false value >>=
              fun n => located mark (endField name n)) (Segment.Meets S) :=
            beginField_upholds.bind fun _ _ => (expression_upholds hcatalog false value hfirst).bind
              fun _ hnode => (endField_upholds name hnode).located
          have hentry : Upholds S (_ >>= fun segment => fieldEntries catalog rest >>= fun fields =>
              pure (.extend name segment :: fields)) fun fields =>
                ∀ s ∈ FieldSpec.computed fields, s.Meets S :=
            hvalue.bind fun segment hsegment => (fieldEntries_upholds hcatalog rest hothers).map
              fun _ hrest => List.forall_mem_cons.mpr ⟨hsegment, hrest⟩
          -- the walk nests to the right what is one step here
          simp only [bind_assoc] at hentry
          exact hentry

/-- of the columns of a row -/
theorem bindingValues_upholds (hcatalog : catalog.Meets S) :
    ∀ bindings : List Binding, (∀ b ∈ bindings, b.value.Everywhere (Expr.Meets S)) →
      Upholds S (bindingValues catalog bindings) fun fields =>
        ∀ field ∈ fields, field.2.Everywhere (Node.Meets S)
  | [], _ => .pure fun _ h => absurd h List.not_mem_nil
  | ⟨_, value⟩ :: rest, he => by
      obtain ⟨hfirst, hothers⟩ := List.forall_mem_cons.mp he
      exact (expression_upholds hcatalog false value hfirst).bind fun _ hnode =>
        (bindingValues_upholds hcatalog rest hothers).map fun _ hrest =>
          List.forall_mem_cons.mpr ⟨hnode, hrest⟩

/-- and of the rows of a table. -/
theorem tableRows_upholds (hcatalog : catalog.Meets S) : ∀ rows : List (List Binding),
    (∀ row ∈ rows, ∀ b ∈ row, b.value.Everywhere (Expr.Meets S)) →
      Upholds S (tableRows catalog rows) fun rows =>
        ∀ fields ∈ rows, ∀ field ∈ fields, field.2.Everywhere (Node.Meets S)
  | [], _ => .pure fun _ h => absurd h List.not_mem_nil
  | bindings :: rest, he => by
      obtain ⟨hfirst, hothers⟩ := List.forall_mem_cons.mp he
      exact (bindingValues_upholds hcatalog bindings hfirst).bind fun _ hfields =>
        (tableRows_upholds hcatalog rest hothers).map fun _ hrest =>
          List.forall_mem_cons.mpr ⟨hfields, hrest⟩

/-- What a block binds meets the standard as well. -/
theorem blockBindings_upholds (hcatalog : catalog.Meets S) :
    ∀ bindings : List Binding, (∀ b ∈ bindings, b.value.Everywhere (Expr.Meets S)) →
      Upholds S (blockBindings catalog bindings) fun _ => True
  | [], _ => .pure trivial
  | ⟨name, value⟩ :: rest, he => by
      obtain ⟨hfirst, hothers⟩ := List.forall_mem_cons.mp he
      exact beginLocal_upholds.bind fun _ _ =>
        (expression_upholds hcatalog false value hfirst).bind fun _ hnode =>
          (bindLocal_upholds name hnode).located.bind fun _ _ =>
            blockBindings_upholds hcatalog rest hothers

end

end

-- ======================================================= statements

/-- The scope of a function has its parameters, and its name is not that
of a builtin. -/
theorem enterDefine_upholds (name : String) {params : Heading} (hparams : S.AllowsHeading params) :
    Upholds S (enterDefine name params) fun _ => Builtin.find? name = none := by
  unfold enterDefine
  split
  · exact .fail _
  · rename_i hbuiltin
    rintro w _ _ hw ⟨⟩
    have hscope := Scope.Meets.seeded .parameters (w.context.scopes.level + 1) .parameter hparams
    exact ⟨⟨hw.scopes.enter hscope, hw.locals, hw.frames⟩, by simpa using hbuiltin⟩

/-- A function is declared with its parameters and either its declared
type or that of its body. -/
theorem define_upholds (name : String) {params : Heading} {returns : Option DataType} {body : Node}
    (hreturns : ∀ t ∈ returns, S.Allows t) (hbody : body.Everywhere (Node.Meets S)) :
    Upholds S (define name params returns body) fun s => ∃ link segment,
      s = .define name link segment ∧ link.name = name ∧ link.args = params ∧
      link.variadic = none ∧ S.Allows link.returns ∧ segment.Meets S := by
  refine leave_upholds.bind fun captured hscope => ?_
  dsimp only
  split
  · exact .fail _
  · refine .pure ⟨_, _, rfl, rfl, rfl, rfl, ?_, hscope.lookup, hbody⟩
    cases returns with
    | none => exact hbody.allows_dataType
    | some declared => exact hreturns declared rfl

/-- A type inherits from an entry of the catalog, or from nothing. -/
theorem inherited_eq_ok {catalog : Catalog} {supertype : Option String} {heading : Heading}
    {parent : Option DataType} (h : inherited catalog supertype = .ok (heading, parent)) :
    heading = [] ∧ parent = none ∨ ∃ name symbol, catalog.find? name = some symbol ∧
      symbol.kind = .userType ∧ heading = symbol.type.heading?.getD [] ∧
      parent = some symbol.type := by
  unfold inherited at h
  split at h
  · cases h
    exact .inl ⟨rfl, rfl⟩
  · split at h
    · split at h
      · cases h
        exact .inr ⟨_, _, ‹_›, ‹_›, rfl, rfl⟩
      · cases h
    · cases h

/-- What is inherited is the type and the heading of an entry. -/
theorem inherited_allowed {catalog : Catalog} (hcatalog : catalog.Meets S)
    {supertype : Option String} {heading : Heading} {parent : Option DataType}
    (h : inherited catalog supertype = .ok (heading, parent)) :
    S.AllowsHeading heading ∧ ∀ t ∈ parent, S.Allows t := by
  obtain ⟨rfl, rfl⟩ | ⟨name, symbol, hfind, -, rfl, rfl⟩ := inherited_eq_ok h
  · exact ⟨S.nil, nofun⟩
  · have htype := (hcatalog.find? hfind).type
    refine ⟨Standard.headingD htype, ?_⟩
    rintro _ ⟨⟩
    exact htype

/-- Components are added after those that are there. -/
theorem addComponents_eq_ok {name : String} {components : List Column} {heading output : Heading}
    (hheading : S.AllowsHeading heading) (hcomponents : ∀ c ∈ components, S.Allows c.type)
    (h : addComponents name heading components = .ok output) :
    S.AllowsHeading output ∧ heading <+: output := by
  induction components generalizing heading with
  | nil =>
      cases h
      exact ⟨hheading, List.prefix_refl _⟩
  | cons column rest ih =>
      obtain ⟨hcolumn, hrest⟩ := List.forall_mem_cons.mp hcomponents
      obtain ⟨next, hpush, h⟩ := except_bind_eq_ok.mp h
      rw [mapError_eq_ok] at hpush
      obtain ⟨houtput, hbegins⟩ := ih (S.push hheading hcolumn hpush) hrest h
      obtain ⟨-, rfl⟩ := Heading.push_eq_ok.mp hpush
      exact ⟨houtput, (List.prefix_append _ _).trans hbegins⟩

/-- A type is declared with the heading that it inherits, its components
after it, under a name that is free. -/
theorem typeDef_upholds {catalog : Catalog} (hcatalog : catalog.Meets S) (name : String)
    (supertype : Option String) {components : Heading} (hcomponents : S.AllowsHeading components) :
    Upholds S (typeDef catalog name supertype components) fun s => ∃ heading parent output,
      s = .typeDef ⟨name, output, parent⟩ ∧ Builtin.find? name = none ∧
      inherited catalog supertype = .ok (heading, parent) ∧ heading <+: output ∧
      S.AllowsHeading output ∧ ∀ t ∈ parent, S.Allows t := by
  unfold typeDef
  split
  · exact .fail _
  · rename_i hbuiltin
    have hfree : DataType.ofName? name = none ∧ Builtin.find? name = none := by
      simpa using hbuiltin
    refine .ofExcept_bind fun ⟨heading, parent⟩ hinherited => .ofExcept_bind fun output hadd => ?_
    obtain ⟨hheading, hparent⟩ := inherited_allowed hcatalog hinherited
    obtain ⟨houtput, hbegins⟩ := addComponents_eq_ok hheading (S.types hcomponents) hadd
    exact .pure ⟨heading, parent, output, rfl, hfree.2, hinherited, hbegins, houtput, hparent⟩

/-- What holds of each kind of statement, made of parts that meet the
standard, holds of every statement. -/
theorem statement_upholds {catalog : Catalog} (hcatalog : catalog.Meets S) {R : Statement → Prop}
    (hexpression : ∀ n, n.Everywhere (Node.Meets S) → R (.expression n))
    (hassign : ∀ name n, n.Everywhere (Node.Meets S) → Upholds S (assign catalog name n) R)
    (hdefine : ∀ name params returns body, Builtin.find? name = none → S.AllowsHeading params →
      (∀ t ∈ returns, S.Allows t) → body.Everywhere (Node.Meets S) →
      Upholds S (define name params returns body) R)
    (htypeDef : ∀ name supertype components, S.AllowsHeading components →
      Upholds S (typeDef catalog name supertype components) R)
    {sentence : Sentence} (hsentence : sentence.Meets S) :
    Upholds S (statement catalog sentence) R := by
  cases sentence with
  | expression value =>
      exact (expression_upholds hcatalog false value (hsentence value rfl)).map hexpression
  | assign mark name value =>
      exact (expression_upholds hcatalog false value (hsentence value rfl)).bind fun n hn =>
        .located (hassign name n hn)
  | define mark name params returns body =>
      refine (heading_upholds hcatalog params).bind fun columns hcolumns => ?_
      have hbody (declared : Option DataType) (hdeclared : ∀ t ∈ declared, S.Allows t) :
          Upholds S (located mark (enterDefine name columns) >>= fun _ =>
            expression catalog false body >>= fun n =>
              located mark (define name columns declared n)) R :=
        (enterDefine_upholds name hcolumns).located.bind fun _ hname =>
          (expression_upholds hcatalog false body (hsentence body rfl)).bind fun n hn =>
            (hdefine name columns declared n hname hcolumns hdeclared hn).located
      cases returns with
      | none => exact hbody none nofun
      | some t =>
          dsimp only
          split
          · refine hbody (some _) ?_
            rintro _ ⟨⟩
            exact typeOf_allowed hcatalog ‹_›
          · exact .throw _
  | typeDef mark name supertype components =>
      refine (heading_upholds hcatalog components).bind fun columns hcolumns => ?_
      intro w s w' hw h
      -- only the mark of a fault depends on the supertype
      dsimp only at h
      cases hdef : typeDef catalog name (supertype.map (·.1)) columns w with
      | error f w₁ =>
          rw [hdef] at h
          cases h
      | ok found w₁ =>
          rw [hdef] at h
          cases h
          exact htypeDef name _ columns hcolumns w s w' hw hdef

end Build

end RelQuery
