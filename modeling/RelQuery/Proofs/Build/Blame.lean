/-
Where a fault of an expression is marked, and which faults are defects.

Every construct marks the faults of its own steps, and operators, keys,
fields and bindings have marks of their own, so a fault always has a
mark, and it is one of those of the expression. Whether it can be a
defect of the compiler depends on where building begins: in a sound
workspace (`Workspace.IsProper`) the levels and lists that a construct
closes are those that it opened, the slot of a bound name is there, and
what is left is a call of `union_all` without arguments.

`Blames I P Q mark` says both of a step that stands in a construct with
the given mark: the faults have marks in `P`, counting that of the
construct for those that have none, and from a workspace with `I` a
defect is that call, with a mark in `Q`.
-/
import RelQuery.Proofs.Build.Cause
import RelQuery.Proofs.Build.Written

namespace RelQuery

open Workspace

-- ==================================================== soundness kept

/-- Levels keep what they declare while they record reads. -/
theorem Scopes.Widens.mem_all {s t : Scopes} (h : s.Widens t) {scope : Scope} (hs : scope ∈ t.all) :
    ∃ before ∈ s.all, scope.symbols = before.symbols := by
  have hlevels {a b : List Scope} (h : List.Forall₂ Scope.Widens a b) (hs : scope ∈ b) :
      ∃ before ∈ a, scope.symbols = before.symbols := by
    induction h with
    | nil => exact absurd hs List.not_mem_nil
    | cons hfirst _ ih =>
        rcases List.mem_cons.mp hs with rfl | hs
        · exact ⟨_, List.mem_cons_self, hfirst.symbols⟩
        · obtain ⟨before, hbefore, hsame⟩ := ih hs
          exact ⟨before, List.mem_cons_of_mem _ hbefore, hsame⟩
  exact hlevels h.levels hs

namespace Workspace

variable {catalog : Catalog} {w w' : Workspace} {slots : List Nat}

/-- Steps that close what they open keep a workspace sound. -/
theorem IsProper.widens (hw : w.IsProper catalog) (h : w.Widens w' slots) :
    w'.IsProper catalog where
  entries := hw.entries
  slots := by
    intro scope hscope symbol hsymbol slot hkind
    obtain ⟨before, hbefore, hsame⟩ := h.scopes.mem_all hscope
    rw [h.locals]
    exact hw.slots before hbefore symbol (hsame ▸ hsymbol) slot hkind

/-- Opening a level that binds no slots. -/
theorem IsProper.entered (hw : w.IsProper catalog) {scope : Scope} (mode : FoldMode)
    (hscope : ∀ symbol ∈ scope.symbols, ∀ slot, symbol.kind ≠ .bound slot) :
    (w.entered scope mode).IsProper catalog where
  entries := hw.entries
  slots := by
    intro other hother symbol hsymbol slot hkind
    rcases List.mem_cons.mp hother with rfl | hother
    · exact absurd hkind (hscope symbol hsymbol slot)
    · exact hw.slots other hother symbol hsymbol slot hkind

/-- Columns of one level are symbols of one kind. -/
theorem kind_seeded {kind : ScopeKind} {level : Nat} {heading : Heading} {symbolKind : SymbolKind}
    {symbol : Symbol} (h : symbol ∈ (Scope.seeded kind level heading symbolKind).symbols) :
    symbol.kind = symbolKind := by
  obtain ⟨c, -, rfl⟩ := List.mem_map.mp h
  rfl

/-- The level of a row or a list declares columns, none of them bound. -/
theorem IsProper.opened (hw : w.IsProper catalog) (type : Option DataType) (mode : FoldMode) :
    (w.opened type mode).IsProper catalog := by
  refine hw.entered mode fun symbol hsymbol slot hkind => ?_
  have hseeded {kind : SymbolKind} (hdeclared : symbol.kind = kind)
      (hunbound : kind ≠ .bound slot) : False := by
    rw [hdeclared] at hkind
    exact hunbound hkind
  unfold Scope.ofType at hsymbol
  split at hsymbol
  · exact hseeded (kind_seeded hsymbol) nofun
  · exact hseeded (kind_seeded hsymbol) nofun
  · exact hseeded (kind_seeded hsymbol) nofun
  · exact absurd hsymbol List.not_mem_nil

/-- Lists that are opened and counted slots do not matter. -/
theorem IsProper.of_eq (hw : w.IsProper catalog)
    (hscopes : w'.context.scopes.all = w.context.scopes.all) (hlocals : w'.locals = w.locals) :
    w'.IsProper catalog :=
  ⟨hw.entries, by rw [hscopes, hlocals]; exact hw.slots⟩

end Workspace

namespace Build

variable {α β : Type} {catalog : Catalog} {w w' w₁ : Workspace} {f : BuildFault}

/-- Trackers are no levels. -/
theorem all_takeReads (s : Scopes) : s.takeReads.2.all = s.all := by
  unfold Scopes.takeReads
  split
  · rfl
  · rfl

/-- A symbol that is bound stands for the slot that is added with it. -/
theorem bindLocal_isProper {name : String} {value : Node} {u : Unit} (hw : w.IsProper catalog)
    (h : bindLocal name value w = .ok u w') : w'.IsProper catalog := by
  rw [bindLocal, get_bind_apply] at h
  obtain ⟨reads, w₁, hreads, h⟩ := bind_eq_ok.mp h
  obtain ⟨u₁, w₂, hrestore, h⟩ := bind_eq_ok.mp h
  -- taking the reads and restoring the counter leave symbols and locals alone
  have hsame : w₂.context.scopes.all = w.context.scopes.all ∧ w₂.locals = w.locals := by
    cases hreads
    cases hrestore
    dsimp only
    split
    · exact ⟨all_takeReads _, rfl⟩
    · exact ⟨all_takeReads _, rfl⟩
  have hw₂ := hw.of_eq hsame.1 hsame.2
  -- the symbol is added together with its slot
  rw [get_bind_apply] at h
  obtain ⟨scopes, w₃, hadd, h⟩ := bind_eq_ok.mp h
  obtain ⟨hadd, rfl⟩ := ofExcept_eq_ok.mp hadd
  unfold Scopes.add at hadd
  split at hadd
  · cases hadd
  · cases hadd
    cases h
    refine ⟨hw.entries, fun scope hscope symbol hsymbol slot hkind => ?_⟩
    have hlength : slot < w₂.locals.length + 1 := by
      -- an old symbol has an old slot, the new one has the last
      rcases List.mem_cons.mp hscope with rfl | houter
      · rcases List.mem_append.mp hsymbol with hold | hnew
        · exact Nat.lt_succ_of_lt (hw₂.slots _ List.mem_cons_self symbol hold slot hkind)
        · cases List.mem_singleton.mp hnew
          cases hkind
          exact Nat.lt_succ_self _
      · exact Nat.lt_succ_of_lt
          (hw₂.slots scope (List.mem_cons_of_mem _ houter) symbol hsymbol slot hkind)
    simpa using hlength

/-- Before a value is bound only counters change. -/
theorem beginLocal_isProper {u : Unit} (hw : w.IsProper catalog) (h : beginLocal w = .ok u w') :
    w'.IsProper catalog := by
  cases h
  exact hw.of_eq rfl rfl

/-- Making trees opens nothing that stays. -/
theorem Turns.isProper {given : List Node} {step : Build α} {made : α → List Node}
    (h : Turns given step made) {a : α} (ha : step w = .ok a w') (hw : w.IsProper catalog) :
    w'.IsProper catalog := by
  obtain ⟨slots, hgrows, -, -⟩ := h w a w' ha
  exact hw.widens hgrows.toWidens

-- ============================================================ blame

/-- A fault inside a construct with a given mark: it has a mark in `P`,
and if it is a defect of the compiler it is a call of `union_all` with a
mark in `Q`, provided that building began well. -/
def Blamed (P Q : Nat → Prop) (mark : Nat) (began : Prop) (f : BuildFault) : Prop :=
  P (f.mark.getD mark) ∧ (began → f.error.kind = .internal →
    f.error = .type (.unresolvedReturn "union_all") ∧ Q (f.mark.getD mark))

/-- The blame is the same if building began better than it had to. -/
theorem Blamed.imp {P Q : Nat → Prop} {mark : Nat} {began began' : Prop}
    (h : Blamed P Q mark began f) (hbegan : began' → began) : Blamed P Q mark began' f :=
  ⟨h.1, fun hb => h.2 (hbegan hb)⟩

/-- The faults of a step that begins in a workspace with `I`. -/
def Blames (I : Workspace → Prop) (P Q : Nat → Prop) (mark : Nat) (step : Build α) : Prop :=
  ∀ w f w', step w = .error f w' → Blamed P Q mark (I w) f

/-- The step keeps a property of workspaces. -/
def Keeps (I : Workspace → Prop) (step : Build α) : Prop :=
  ∀ w a w', step w = .ok a w' → I w → I w'

/-- What turns trees into others keeps a proper workspace proper. -/
theorem Turns.keeps {given : List Node} {step : Build α} {made : α → List Node}
    (h : Turns given step made) : Keeps (IsProper catalog) step :=
  fun _ _ _ ha hw => h.isProper ha hw

namespace Blames

variable {I : Workspace → Prop} {P Q : Nat → Prop} {mark : Nat} {step : Build α}
  {g : α → Build β}

/-- A step that cannot fail. -/
theorem total (h : ∀ w f w', step w ≠ .error f w') : Blames I P Q mark step :=
  fun w f w' hf => absurd hf (h w f w')

theorem pure (a : α) : Blames I P Q mark (pure a) :=
  total fun _ _ _ h => nomatch h

/-- A step without marks of its own. -/
theorem of_raises {D : BuildError → Prop} (hmark : P mark) (h : Raises I D step)
    (hD : ∀ e, D e → e = .type (.unresolvedReturn "union_all") ∧ Q mark) :
    Blames I P Q mark step := by
  intro w f w' hf
  obtain ⟨hnone, hcause⟩ := h w f w' hf
  rw [Blamed, hnone]
  exact ⟨hmark, fun hw hkind => hD f.error (hcause hw hkind)⟩

/-- A step that is at most mistaken. -/
theorem of_mistakes (hmark : P mark) (h : Raises I (fun _ => False) step) :
    Blames I P Q mark step :=
  of_raises hmark h fun _ hnever => hnever.elim

/-- A step marks its own faults. -/
theorem located {outer : Nat} (h : Blames I P Q mark step) :
    Blames I P Q outer (located mark step) := by
  intro w f w' hf
  unfold Build.located at hf
  cases hstep : step w with
  | ok a w₁ =>
      rw [hstep] at hf
      cases hf
  | error e w₁ =>
      rw [hstep] at hf
      cases hf
      have hplace : (e.orAt mark).mark.getD outer = e.mark.getD mark := by
        unfold BuildFault.orAt
        cases e.mark <;> rfl
      rw [Blamed, hplace]
      exact h w e w' hstep

/-- What follows may depend on what was made. -/
theorem bind (h : Blames I P Q mark step) (hok : Keeps I step)
    (hg : ∀ w a w', step w = .ok a w' → Blames I P Q mark (g a)) :
    Blames I P Q mark (step >>= g) := by
  intro w f w' hf
  obtain hstep | ⟨a, w₁, ha, hga⟩ := bind_eq_error.mp hf
  · exact h w f w' hstep
  · exact (hg w a w₁ ha w₁ f w' hga).imp (hok w a w₁ ha)

/-- Nothing is raised by what is done with a result. -/
theorem map (h : Blames I P Q mark step) (k : α → β) :
    Blames I P Q mark (step >>= fun a => Pure.pure (k a)) := by
  intro w f w' hf
  obtain hstep | ⟨a, w₁, -, hpure⟩ := bind_eq_error.mp hf
  · exact h w f w' hstep
  · cases hpure

end Blames

section

variable {P Q : Nat → Prop} {mark : Nat}

-- ============================================================ chains

/-- Operands that are there already are joined at their operators, each
of which has a mark. -/
theorem combine_blames {g : Grouping (String × Nat) Node}
    (h : ∀ op ∈ g.operators, isInfix op.1 = true ∧ P op.2) :
    Blames (IsProper catalog) P Q mark (g.combine fun lhs op rhs =>
      located op.2 (binary catalog op.1 lhs rhs)) := by
  induction g with
  | operand a => exact .pure a
  | joined left op right ihl ihr =>
      obtain ⟨hop, hrest⟩ := List.forall_mem_cons.mp h
      obtain ⟨hleft, hright⟩ := List.forall_mem_append.mp hrest
      refine (ihl hleft).bind (combine_turns catalog left).keeps fun _ l _ _ => ?_
      refine (ihr hright).bind (combine_turns catalog right).keeps fun _ r _ _ => ?_
      exact .located (.of_mistakes hop.2 (binary_raises catalog hop.1 l r))

/-- How a chain is grouped makes no difference to its operators. -/
theorem joinChain_blames (first : Node) {rest : List ((String × Nat) × Node)}
    (h : ∀ op ∈ rest.map Prod.fst, isInfix op.1 = true ∧ P op.2) :
    Blames (IsProper catalog) P Q mark (joinChain catalog first rest) := by
  rw [joinChain_eq]
  exact combine_blames fun op hop => h op (Grouping.mem_operators_ofChain hop)

-- ===================================================== restrictions

/-- A restriction opens the level of its base for the predicate; by the
time it closes the level there is one to close. -/
theorem restrict_blames (base : Node) {step : Build Node} (hok : Turns [] step fun n => [n])
    (h : Blames (IsProper catalog) P Q mark step) (hmark : P mark) :
    Blames (IsProper catalog) P Q mark
      (enterRestrict base >>= fun _ => step >>= fun p => restrict base p) := by
  intro w f w' hf
  obtain henter | ⟨u, w₁, henter, hf⟩ := bind_eq_error.mp hf
  · exact Blames.of_mistakes hmark (enterRestrict_raises base) w f w' henter
  obtain ⟨-, rfl⟩ := enterRestrict_eq_ok henter
  obtain hpredicate | ⟨predicate, w₂, hpredicate, hrestrict⟩ := bind_eq_error.mp hf
  · exact (h _ f w' hpredicate).imp fun hw => hw.opened _ _
  · obtain ⟨slots, hgrows, -, -⟩ := hok _ predicate w₂ hpredicate
    exact (Blames.of_mistakes hmark (restrict_raises base predicate) w₂ f w' hrestrict).imp
      fun _ => hgrows.toWidens.isOpen

-- =========================================================== blocks

/-- After the bindings and the body, the level of the block is still
there, and its counter as well. -/
theorem Binds.isOpen {scope : Scope} {mode : FoldMode} {w₂ : Workspace} {slots : List Nat}
    (hbinds : Binds (w.entered scope mode) w₁) (hgrows : w₁.Grows w₂ slots) : w₂.IsOpen where
  scopes := by
    have hlevels := hgrows.scopes.levels
    cases hlevels with
    | cons _ houter =>
        -- there are as many levels around the block as before it
        intro hnil
        have hdepth := hbinds.outer.length_eq.trans houter.length_eq
        rw [hnil] at hdepth
        cases hdepth
  counters := by
    have hdepth : w₂.context.counters.depth = w.context.counters.depth + 1 := by
      rw [hgrows.counters, Counters.depth_update, hbinds.counters]
      rfl
    intro hnil
    rw [Counters.depth, hnil] at hdepth
    cases hdepth

/-- A block fails in a binding, in its body, or when it is closed. -/
theorem block_blames {bindings : Build Unit} {step : Build Node}
    (hbinds : ∀ w u w', bindings w = .ok u w' → Binds w w')
    (hkeeps : Keeps (IsProper catalog) bindings)
    (hbindings : Blames (IsProper catalog) P Q mark bindings) (hok : Turns [] step fun n => [n])
    (h : Blames (IsProper catalog) P Q mark step) (hmark : P mark) :
    Blames (IsProper catalog) P Q mark
      (enterBlock >>= fun first => bindings >>= fun _ => step >>= fun n => block first n) := by
  intro w f w' hf
  obtain henter | ⟨first, w₁, henter, hf⟩ := bind_eq_error.mp hf
  · cases henter
  have hopened : w₁ = w.opened none .inherit := by
    cases henter
    rfl
  subst hopened
  obtain hbind | ⟨u, w₂, hbind, hf⟩ := bind_eq_error.mp hf
  · exact (hbindings _ f w' hbind).imp fun hw => hw.opened _ _
  obtain hbody | ⟨body, w₃, hbody, hblock⟩ := bind_eq_error.mp hf
  · exact (h w₂ f w' hbody).imp fun hw => hkeeps _ u w₂ hbind (hw.opened _ _)
  · obtain ⟨slots, hgrows, -, -⟩ := hok w₂ body w₃ hbody
    exact (Blames.of_mistakes hmark (block_raises first body) w₃ f w' hblock).imp
      fun _ => (hbinds _ u w₂ hbind).isOpen hgrows

-- ====================================================== field lists

/-- Keys have marks of their own. -/
theorem orderKeys_blames {keys : List OrderKey} (hkeys : ∀ key ∈ keys, P key.mark) :
    Blames (fun _ => True) P Q mark (orderKeys keys) := by
  induction keys with
  | nil => exact .pure _
  | cons key rest ih =>
      obtain ⟨hkey, hrest⟩ := List.forall_mem_cons.mp hkeys
      refine .bind (.located (.of_mistakes hkey (orderKey_raises _ _ _))) (fun _ _ _ _ h => h)
        fun _ _ _ _ => (ih hrest).map _

/-- A sound workspace in which a list is open. -/
def IsListing (catalog : Catalog) (w : Workspace) : Prop :=
  w.IsProper catalog ∧ w.frames ≠ []

/-- Entries are built inside the list that they are entries of. -/
theorem Lists.keeps {step : Build α} {made : α → List Segment} (h : Lists step made) :
    Keeps (IsListing catalog) step := by
  intro w a w' ha hw
  obtain ⟨slots, hwidens, -, -⟩ := h w a w' ha
  exact ⟨hw.1.widens hwidens, by rw [hwidens.frames]; exact hw.2⟩

/-- A field has a level of its own, which is there when it ends. -/
theorem field_blames {step : Build Node} (hok : Turns [] step fun n => [n])
    (h : Blames (IsProper catalog) P Q mark step) (name : String) {place : Nat} (hplace : P place)
    (hmark : P mark) :
    Blames (IsListing catalog) P Q mark
      (beginField >>= fun _ => step >>= fun n => located place (endField name n)) := by
  intro w f w' hf
  obtain hbegin | ⟨u, w₁, hbegin, hf⟩ := bind_eq_error.mp hf
  · exact (Blames.of_mistakes hmark beginField_raises w f w' hbegin).imp And.right
  obtain ⟨frame, rest, -, rfl⟩ := beginField_eq_ok hbegin
  obtain hvalue | ⟨value, w₂, hvalue, hend⟩ := bind_eq_error.mp hf
  · have hreset (hw : w.IsProper catalog) : (w.onCounter .resetField).IsProper catalog :=
      hw.of_eq rfl rfl
    exact (h _ f w' hvalue).imp fun hw => (hreset hw.1).opened _ _
  · obtain ⟨slots, hgrows, -, -⟩ := hok _ value w₂ hvalue
    have hraises : Blames IsOpen P Q mark (located place (endField name value)) :=
      .located (.of_mistakes hplace (endField_raises name value))
    exact (hraises w₂ f w' hend).imp fun _ => hgrows.toWidens.isOpen

/-- A list that has its level. -/
theorem list_blames {node : Node} {keys : List OrderKey} {t : DataType} {frame : FieldFrame}
    {fields : Build (List (FieldSpec Segment))} {keepOpen : Bool}
    (hkeys : ∀ key ∈ keys, P key.mark) (hfields : Blames (IsListing catalog) P Q mark fields)
    (hlists : Lists fields FieldSpec.computed) (hmark : P mark)
    (h : (orderKeys keys >>= fun order => fields >>= fun entries =>
      finishFields node order entries keepOpen)
        { w.opened t .enabled with frames := frame :: w.frames } = .error f w') :
    Blamed P Q mark (w.IsProper catalog) f := by
  have hstart (hw : w.IsProper catalog) :
      IsListing catalog { w.opened t .enabled with frames := frame :: w.frames } :=
    ⟨(hw.opened t .enabled).of_eq rfl rfl, List.cons_ne_nil _ _⟩
  obtain horder | ⟨order, w₁, horder, h⟩ := bind_eq_error.mp h
  · exact (orderKeys_blames hkeys _ f w' horder).imp fun _ => trivial
  have hgrows := (orderKeys_eq_ok horder).1
  have hlisting (hw : w.IsProper catalog) : IsListing catalog w₁ :=
    ⟨(hstart hw).1.widens hgrows.toWidens, by rw [hgrows.frames]; exact (hstart hw).2⟩
  obtain hentries | ⟨entries, w₂, hentries, hfinish⟩ := bind_eq_error.mp h
  · exact (hfields w₁ f w' hentries).imp hlisting
  · obtain ⟨slots, hwidens, -, -⟩ := hlists w₁ entries w₂ hentries
    have hlevel := Widens.dropFrame (w := w.opened t .enabled) (hgrows.toWidens.trans hwidens)
    have hraises := finishFields_raises (D := fun _ => False) node order entries keepOpen
    refine (Blames.of_mistakes hmark hraises w₂ f w' hfinish).imp fun hw => ⟨?_, ?_⟩
    · exact ⟨hlevel.isOpen.scopes, hlevel.isOpen.counters⟩
    · exact (hlists.keeps w₁ entries w₂ hentries (hlisting hw)).2

/-- A list over a base that left its level open takes that level over;
over any other base it opens one. -/
theorem fields_blames {isOpen : Bool} {base : Build Node} (allBut keepOpen : Bool)
    {keys : List OrderKey} {fields : Build (List (FieldSpec Segment))}
    (hbuilds : Builds isOpen base) (hbase : Blames (IsProper catalog) P Q mark base)
    (hkeys : ∀ key ∈ keys, P key.mark) (hfields : Blames (IsListing catalog) P Q mark fields)
    (hlists : Lists fields FieldSpec.computed) (hmark : P mark) :
    Blames (IsProper catalog) P Q mark (base >>= fun node =>
      let rest (_ : Unit) := orderKeys keys >>= fun order => fields >>= fun entries =>
        finishFields node order entries keepOpen
      if isOpen then chainFields node allBut >>= rest else enterFields node allBut >>= rest) := by
  intro w f w' hf
  obtain hnode | ⟨node, w₁, hnode, hf⟩ := bind_eq_error.mp hf
  · exact hbase w f w' hnode
  obtain ⟨slots, w₀, hgrows, -, -, hleft⟩ := hbuilds w node w₁ hnode
  cases isOpen with
  | true =>
      obtain ⟨t, rfl⟩ := hleft
      obtain hopen | ⟨u, w₂, hopen, hlist⟩ := bind_eq_error.mp hf
      · have hraises := chainFields_raises (I := fun _ => True) (D := fun _ => False) node allBut
        exact (Blames.of_mistakes hmark hraises _ f w' hopen).imp fun _ => trivial
      · rw [(chainFields_eq_ok hopen).2] at hlist
        exact (list_blames hkeys hfields hlists hmark hlist).imp fun hw =>
          hw.widens hgrows.toWidens
  | false =>
      cases hleft
      obtain hopen | ⟨u, w₂, hopen, hlist⟩ := bind_eq_error.mp hf
      · have hraises := enterFields_raises (I := fun _ => True) (D := fun _ => False) node allBut
        exact (Blames.of_mistakes hmark hraises _ f w' hopen).imp fun _ => trivial
      · rw [(enterFields_eq_ok hopen).2] at hlist
        exact (list_blames hkeys hfields hlists hmark hlist).imp fun hw =>
          hw.widens hgrows.toWidens

end

/-- A heading of an empty table: an unknown type is marked at the type, a
column that is there twice at the table. -/
theorem heading_blames {P Q : Nat → Prop} {mark : Nat} {columns : List (String × TypeExpr)}
    (hcolumns : ∀ m ∈ columnMarks columns, P m) (hmark : P mark) :
    Blames (IsProper catalog) P Q mark (heading catalog columns) := by
  intro w f w' hf
  obtain ⟨m, hm, name, rfl⟩ | ⟨-, c, rfl⟩ := heading_eq_error hf
  · exact ⟨hcolumns m hm, fun _ => nofun⟩
  · exact ⟨hmark, fun _ => nofun⟩

-- ========================================================= the walk

/-- What an expression adds to its parts has marks in `P` and infix
operators, and if it is a call of `union_all` without arguments it has
its mark in `Q`. -/
structure Bears (P Q : Nat → Prop) (e : Expr) : Prop where
  placed : e.IsPlaced P
  unions : ∀ m, e = .call m "union_all" [] → Q m

/-- One tree for each expression. -/
theorem expressions_length {es : List Expr} {ns : List Node}
    (h : expressions catalog es w = .ok ns w') : ns.length = es.length := by
  induction es generalizing w ns with
  | nil =>
      cases h
      rfl
  | cons e rest ih =>
      obtain ⟨n, w₁, -, h⟩ := bind_eq_ok.mp h
      obtain ⟨others, w₂, hrest, h⟩ := bind_eq_ok.mp h
      cases h
      exact congrArg (· + 1) (ih hrest)

/-- The operators of a chain come through as they are written. -/
theorem operands_operators {steps : List Step} {rest : List ((String × Nat) × Node)}
    (h : operands catalog steps w = .ok rest w') :
    rest.map Prod.fst = steps.map fun s => (s.op, s.mark) := by
  induction steps generalizing w rest with
  | nil =>
      cases h
      rfl
  | cons step steps ih =>
      obtain ⟨op, place, operand⟩ := step
      obtain ⟨n, w₁, -, h⟩ := bind_eq_ok.mp h
      obtain ⟨others, w₂, hrest, h⟩ := bind_eq_ok.mp h
      cases h
      exact congrArg ((op, place) :: ·) (ih hrest)

/-- Each binding adds the slot that its name stands for. -/
theorem blockBindings_keeps (catalog : Catalog) (bindings : List Binding) :
    Keeps (IsProper catalog) (blockBindings catalog bindings) := by
  induction bindings with
  | nil =>
      intro w u w' h hw
      cases h
      exact hw
  | cons binding rest ih =>
      obtain ⟨name, value⟩ := binding
      intro w u w' h hw
      obtain ⟨u₁, w₁, hbegin, h⟩ := bind_eq_ok.mp h
      obtain ⟨n, w₂, hvalue, h⟩ := bind_eq_ok.mp h
      obtain ⟨u₂, w₃, hbind, hrest⟩ := bind_eq_ok.mp h
      have hw₁ := beginLocal_isProper hw hbegin
      have hw₂ := (expression_builds catalog false value).turns.isProper hvalue hw₁
      exact ih w₃ u w' hrest (bindLocal_isProper hw₂ (located_eq_ok.mp hbind))

/-- Telling a renamed column from a computed one looks at the syntax and
the innermost list, and cannot fail. -/
theorem renameSource?_ne_error {e : Expr} : renameSource? e w ≠ .error f w' := by
  unfold renameSource?
  split
  · intro h
    obtain hrename | ⟨b, w₁, -, hpure⟩ := bind_eq_error.mp h
    · rw [isRename, get_bind_apply] at hrename
      generalize w.frames = frames at hrename
      cases frames with
      | nil => cases hrename
      | cons frame rest => cases hrename
    · cases hpure
  · exact fun h => nomatch h

/-- The mark of an expression is one of those it adds to its parts. -/
theorem mark_mem_ownMarks (e : Expr) : e.mark ∈ e.ownMarks := by
  cases e <;> exact List.mem_cons_self

section

variable {P Q : Nat → Prop} {mark outer : Nat}

/-- What the parts of an expression bear. -/
theorem bears_parts {e : Expr} (h : e.Everywhere (Bears P Q)) :
    ∀ part ∈ e.parts, part.Everywhere (Bears P Q) :=
  (Expr.everywhere_iff.mp h).2

/-- A construct marks what goes wrong in it. -/
theorem bears_mark {e : Expr} (h : e.Everywhere (Bears P Q)) : P e.mark :=
  (Expr.everywhere_iff.mp h).1.placed.marks e.mark (mark_mem_ownMarks e)

-- ================================================ single constructs

/-- Most constructs build their parts and do one thing with them, which
may be mistaken but is no defect. -/
theorem construct_blames {step : Build α} {made : α → List Node} {rest : α → Build β}
    (hok : Turns [] step made) (h : Blames (IsProper catalog) P Q mark step) (hmark : P mark)
    (hrest : ∀ a, Raises (IsProper catalog) (fun _ => False) (rest a)) :
    Blames (IsProper catalog) P Q outer (located mark (step >>= rest)) := by
  refine .located (h.bind hok.keeps fun _ a _ _ => ?_)
  exact .of_mistakes hmark (hrest a)

/-- A call is a defect only if it is one of `union_all` and there are no
arguments, built or written. -/
theorem call_blames {name : String} {args : List Expr}
    (h : Blames (IsProper catalog) P Q mark (expressions catalog args)) (hmark : P mark)
    (hunion : name = "union_all" → args = [] → Q mark) :
    Blames (IsProper catalog) P Q outer
      (located mark (expressions catalog args >>= fun ns => call catalog name ns)) := by
  refine .located (h.bind (expressions_turns catalog args).keeps fun w ns w' hns => ?_)
  refine .of_raises hmark (call_raises catalog name ns) ?_
  rintro e ⟨rfl, rfl, rfl⟩
  have hnone : args = [] := List.length_eq_zero_iff.mp (expressions_length hns).symm
  exact ⟨rfl, hunion rfl hnone⟩

/-- The operands of a chain are built before any of them is joined. -/
theorem chain_blames {first : Expr} {steps : List Step}
    (hfirst : Blames (IsProper catalog) P Q mark (expression catalog false first))
    (hsteps : Blames (IsProper catalog) P Q mark (operands catalog steps))
    (hops : ∀ s ∈ steps, isInfix s.op = true ∧ P s.mark) :
    Blames (IsProper catalog) P Q outer (located mark (expression catalog false first >>= fun n =>
      operands catalog steps >>= fun rest => joinChain catalog n rest)) := by
  have hturns := (expression_builds catalog false first).turns
  refine .located (hfirst.bind hturns.keeps fun _ n _ _ => ?_)
  refine hsteps.bind (operands_turns catalog steps).keeps fun _ rest _ hrest => ?_
  refine joinChain_blames n ?_
  rw [operands_operators hrest]
  exact List.forall_mem_map.mpr hops

/-- A computed field before others, as the walk nests them. -/
theorem computed_blames {name : String} {place : Nat} {value : Expr} {rest : List FieldEntry}
    (hvalue : Blames (IsProper catalog) P Q mark (expression catalog false value))
    (hrest : Blames (IsListing catalog) P Q mark (fieldEntries catalog rest)) (hplace : P place)
    (hmark : P mark) :
    Blames (IsListing catalog) P Q mark
      (fieldEntries catalog (.computed name place value :: rest)) := by
  have hrename : Blames (IsListing catalog) P Q mark (renameSource? value) :=
    .total fun w f w' hf => renameSource?_ne_error hf
  refine hrename.bind ?_ fun _ source _ _ => ?_
  · intro w source w' hsource hw
    rw [(renameSource?_looks value w source w' hsource).1]
    exact hw
  cases source with
  | some source => exact hrest.map _
  | none =>
      have hturns := (expression_builds catalog false value).turns
      have hfield := field_blames hturns hvalue name hplace hmark
      have hlist := hfield.bind (field_lists hturns name place).keeps fun _ s _ _ =>
        hrest.map fun fs => FieldSpec.extend name s :: fs
      -- the walk nests to the right what `field_blames` takes as one step
      simp only [bind_assoc] at hlist
      exact hlist

/-- A binding of a block before others: its value is built in a level of
its own, and the name is bound at the mark of the value. -/
theorem binding_blames {name : String} {value : Expr} {rest : List Binding}
    (hvalue : Blames (IsProper catalog) P Q mark (expression catalog false value))
    (hrest : Blames (IsProper catalog) P Q mark (blockBindings catalog rest))
    (hmark : P value.mark) :
    Blames (IsProper catalog) P Q mark (blockBindings catalog (⟨name, value⟩ :: rest)) := by
  have hbegin : Blames (IsProper catalog) P Q mark beginLocal :=
    .total fun _ _ _ h => nomatch h
  refine hbegin.bind (fun _ _ _ hok hw => beginLocal_isProper hw hok) fun _ _ _ _ => ?_
  refine hvalue.bind (expression_builds catalog false value).turns.keeps fun _ n _ _ => ?_
  have hbind : Blames (IsProper catalog) P Q mark (located value.mark (bindLocal name n)) :=
    .located (.of_mistakes hmark (bindLocal_raises name n))
  refine hbind.bind (fun _ _ _ hok hw => ?_) fun _ _ _ _ => hrest
  exact bindLocal_isProper hw (located_eq_ok.mp hok)

-- ==================================================== all constructs

mutual

/-- Faults of an expression are marked in it, and are defects only at
empty calls of `union_all`. The induction is on the syntax; every case
hands the parts to the lemma for its construct. -/
theorem expression_blames (catalog : Catalog) (keepOpen : Bool) {outer : Nat} :
    ∀ e : Expr, e.Everywhere (Bears P Q) →
      Blames (IsProper catalog) P Q outer (expression catalog keepOpen e)
  | .number _ _, _ | .text _ _, _ | .bool _ _, _ | .time _ _, _ => .pure _
  | .name mark name, h =>
      .located (.of_mistakes (bears_mark h) (useName_raises catalog name))
  | .currentRow mark, h => .located (.of_mistakes (bears_mark h) currentRow_raises)
  | .call mark name args, h => by
      have hunion := (Expr.everywhere_iff.mp h).1.unions mark
      refine call_blames (expressions_blames catalog args (bears_parts h)) (bears_mark h) ?_
      rintro rfl rfl
      exact hunion rfl
  | .fold mark op arg, h => by
      have harg := bears_parts h arg List.mem_cons_self
      exact construct_blames (expression_builds catalog false arg).turns
        (expression_blames catalog false arg harg) (bears_mark h) (fold_raises op)
  | .chain mark first steps, h => by
      have hplaced := (Expr.everywhere_iff.mp h).1.placed
      obtain ⟨hfirst, hsteps⟩ := List.forall_mem_cons.mp (bears_parts h)
      refine chain_blames (expression_blames catalog false first hfirst)
        (operands_blames catalog steps (List.forall_mem_map.mp hsteps)) fun s hs => ⟨?_, ?_⟩
      · exact hplaced.operators s.op (List.mem_map_of_mem hs)
      · exact hplaced.marks s.mark (List.mem_cons_of_mem _ (List.mem_map_of_mem hs))
  | .not mark arg, h => by
      have harg := bears_parts h arg List.mem_cons_self
      exact construct_blames (expression_builds catalog false arg).turns
        (expression_blames catalog false arg harg) (bears_mark h)
        fun n => call_raises_cons catalog "not" n []
  | .neg mark arg, h => by
      have harg := bears_parts h arg List.mem_cons_self
      exact construct_blames (expression_builds catalog false arg).turns
        (expression_blames catalog false arg harg) (bears_mark h) (negate_raises catalog)
  | .member mark base name, h => by
      have hbase := bears_parts h base List.mem_cons_self
      exact construct_blames (expression_builds catalog false base).turns
        (expression_blames catalog false base hbase) (bears_mark h) fun n => member_raises n name
  | .restrict mark base predicate, h => by
      obtain ⟨hbase, hpredicate⟩ := List.forall_mem_cons.mp (bears_parts h)
      have hpredicate : Blames (IsProper catalog) P Q mark (expression catalog false predicate) :=
        expression_blames catalog false predicate (List.forall_mem_singleton.mp hpredicate)
      refine .located ((expression_blames catalog false base hbase).bind
        (expression_builds catalog false base).turns.keeps fun _ n _ _ => ?_)
      exact restrict_blames n (expression_builds catalog false predicate).turns hpredicate
        (bears_mark h)
  | .fields mark base ⟨allBut, order, entries⟩, h => by
      obtain ⟨hbase, hvalues⟩ := List.forall_mem_cons.mp (bears_parts h)
      obtain ⟨hmark, hmarks⟩ := List.forall_mem_cons.mp (Expr.everywhere_iff.mp h).1.placed.marks
      obtain ⟨horder, hentries⟩ := List.forall_mem_append.mp hmarks
      have hfields := fieldEntries_blames catalog hmark entries (List.forall_mem_map.mp hentries)
        hvalues
      exact .located (fields_blames allBut keepOpen (expression_builds catalog true base)
        (expression_blames catalog true base hbase) (List.forall_mem_map.mp horder) hfields
        (fieldEntries_lists catalog entries) hmark)
  | .row mark bindings, h => by
      have hvalues := List.forall_mem_map.mp (bears_parts h)
      exact construct_blames (bindingValues_turns catalog bindings)
        (bindingValues_blames catalog bindings hvalues) (bears_mark h) row_raises
  | .table mark rows, h => by
      -- the parts of a table are the values of all its rows
      have hvalues := List.forall_mem_map.mp (bears_parts h)
      have hrows : Blames (IsProper catalog) P Q mark (tableRows catalog rows) :=
        tableRows_blames catalog rows fun row hrow b hb =>
          hvalues b (List.mem_flatten_of_mem hrow hb)
      exact construct_blames (tableRows_turns catalog rows) hrows (bears_mark h) table_raises
  | .emptyTable mark columns, h => by
      have hmarks := (Expr.everywhere_iff.mp h).1.placed.marks
      obtain ⟨hmark, hcolumns⟩ := List.forall_mem_cons.mp hmarks
      exact .located ((heading_blames hcolumns hmark).map _)
  | .block mark bindings body, h => by
      obtain ⟨hbody, hvalues⟩ := List.forall_mem_cons.mp (bears_parts h)
      have hbindings : Blames (IsProper catalog) P Q mark (blockBindings catalog bindings) :=
        blockBindings_blames catalog bindings (List.forall_mem_map.mp hvalues)
      exact .located (block_blames (blockBindings_binds catalog bindings)
        (blockBindings_keeps catalog bindings) hbindings
        (expression_builds catalog false body).turns (expression_blames catalog false body hbody)
        (bears_mark h))

/-- Lists of parts are built one after another, and each part bears its own
marks. -/
theorem expressions_blames (catalog : Catalog) {outer : Nat} :
    ∀ es : List Expr, (∀ e ∈ es, e.Everywhere (Bears P Q)) →
      Blames (IsProper catalog) P Q outer (expressions catalog es)
  | [], _ => .pure _
  | e :: rest, h => by
      obtain ⟨he, hrest⟩ := List.forall_mem_cons.mp h
      exact (expression_blames catalog false e he).bind
        (expression_builds catalog false e).turns.keeps fun _ _ _ _ =>
          (expressions_blames catalog rest hrest).map _

theorem operands_blames (catalog : Catalog) {outer : Nat} :
    ∀ steps : List Step, (∀ s ∈ steps, s.operand.Everywhere (Bears P Q)) →
      Blames (IsProper catalog) P Q outer (operands catalog steps)
  | [], _ => .pure _
  | ⟨_, _, operand⟩ :: rest, h => by
      obtain ⟨hoperand, hrest⟩ := List.forall_mem_cons.mp h
      exact (expression_blames catalog false operand hoperand).bind
        (expression_builds catalog false operand).turns.keeps fun _ _ _ _ =>
          (operands_blames catalog rest hrest).map _

/-- A field has a mark of its own for what its level does. -/
theorem fieldEntries_blames (catalog : Catalog) {mark : Nat} (hmark : P mark) :
    ∀ entries : List FieldEntry, (∀ entry ∈ entries, P entry.mark) →
      (∀ e ∈ entries.filterMap FieldEntry.value?, e.Everywhere (Bears P Q)) →
      Blames (IsListing catalog) P Q mark (fieldEntries catalog entries)
  | [], _, _ => .pure _
  | .plain name _ :: rest, hmarks, h =>
      (fieldEntries_blames catalog hmark rest (List.forall_mem_cons.mp hmarks).2 h).map _
  | .computed name place value :: rest, hmarks, h => by
      obtain ⟨hplace, hmarks⟩ := List.forall_mem_cons.mp hmarks
      obtain ⟨hvalue, hvalues⟩ := List.forall_mem_cons.mp h
      exact computed_blames (expression_blames catalog false value hvalue)
        (fieldEntries_blames catalog hmark rest hmarks hvalues) hplace hmark

theorem bindingValues_blames (catalog : Catalog) {outer : Nat} :
    ∀ bindings : List Binding, (∀ b ∈ bindings, b.value.Everywhere (Bears P Q)) →
      Blames (IsProper catalog) P Q outer (bindingValues catalog bindings)
  | [], _ => .pure _
  | ⟨_, value⟩ :: rest, h => by
      obtain ⟨hvalue, hrest⟩ := List.forall_mem_cons.mp h
      exact (expression_blames catalog false value hvalue).bind
        (expression_builds catalog false value).turns.keeps fun _ _ _ _ =>
          (bindingValues_blames catalog rest hrest).map _

theorem tableRows_blames (catalog : Catalog) {outer : Nat} :
    ∀ rows : List (List Binding), (∀ row ∈ rows, ∀ b ∈ row, b.value.Everywhere (Bears P Q)) →
      Blames (IsProper catalog) P Q outer (tableRows catalog rows)
  | [], _ => .pure _
  | bindings :: rest, h => by
      obtain ⟨hfirst, hrest⟩ := List.forall_mem_cons.mp h
      exact (bindingValues_blames catalog bindings hfirst).bind
        (bindingValues_turns catalog bindings).keeps fun _ _ _ _ =>
          (tableRows_blames catalog rest hrest).map _

theorem blockBindings_blames (catalog : Catalog) {outer : Nat} :
    ∀ bindings : List Binding, (∀ b ∈ bindings, b.value.Everywhere (Bears P Q)) →
      Blames (IsProper catalog) P Q outer (blockBindings catalog bindings)
  | [], _ => .pure _
  | ⟨name, value⟩ :: rest, h => by
      obtain ⟨hvalue, hrest⟩ := List.forall_mem_cons.mp h
      exact binding_blames (expression_blames catalog false value hvalue)
        (blockBindings_blames catalog rest hrest) (bears_mark hvalue)

end

-- ======================================================= statements

/-- A fault that has a mark, in `P`; if it is a defect, it is a call of
`union_all` with its mark in `Q`, provided that building began in a
sound workspace. -/
def Charges (catalog : Catalog) (P Q : Nat → Prop) (w : Workspace) (f : BuildFault) : Prop :=
  ∃ m, f.mark = some m ∧ P m ∧ (w.IsProper catalog → f.error.kind = .internal →
    f.error = .type (.unresolvedReturn "union_all") ∧ Q m)

/-- A step that is blamed for a fault with a mark is charged with it. -/
theorem Blames.charges {step : Build α} {mark : Nat} (h : Blames (IsProper catalog) P Q mark step)
    (hf : step w = .error f w') (hmark : f.mark.isSome = true) : Charges catalog P Q w f := by
  obtain ⟨m, hm⟩ := Option.isSome_iff_exists.mp hmark
  obtain ⟨hin, hcause⟩ := h w f w' hf
  rw [hm] at hin hcause
  exact ⟨m, hm, hin, hcause⟩

/-- What a construct marks has a mark. -/
theorem located_marks {mark : Nat} {step : Build α} (h : located mark step w = .error f w') :
    f.mark.isSome = true := by
  unfold located at h
  cases hstep : step w with
  | ok a w₁ =>
      rw [hstep] at h
      cases h
  | error e w₁ =>
      rw [hstep] at h
      cases h
      unfold BuildFault.orAt
      cases e.mark <;> rfl

/-- Every construct that can fail is marked. -/
theorem expression_marks {keepOpen : Bool} {e : Expr}
    (h : expression catalog keepOpen e w = .error f w') : f.mark.isSome = true := by
  cases e with
  | number | text | bool | time => cases h
  | fields mark base list =>
      obtain ⟨allBut, order, entries⟩ := list
      exact located_marks h
  | _ => exact located_marks h

/-- A fault of an expression is charged to it. -/
theorem expression_charges {keepOpen : Bool} {e : Expr} (he : e.Everywhere (Bears P Q))
    (h : expression catalog keepOpen e w = .error f w') : Charges catalog P Q w f := by
  have hblames : Blames (IsProper catalog) P Q 0 (expression catalog keepOpen e) :=
    expression_blames catalog keepOpen e he
  exact hblames.charges h (expression_marks h)

/-- A definition whose header is understood. -/
theorem define_charges {name : String} {params : Heading} {returns : Option DataType} {mark : Nat}
    {body : Expr} (hbody : body.Everywhere (Bears P Q)) (hmark : P mark)
    (h : (located mark (enterDefine name params) >>= fun _ => expression catalog false body >>=
      fun n => located mark (define name params returns n)) w = .error f w') :
    Charges catalog P Q w f := by
  obtain henter | ⟨u, w₁, henter, h⟩ := bind_eq_error.mp h
  · have hblames : Blames (IsProper catalog) P Q 0 (located mark (enterDefine name params)) :=
      .located (.of_mistakes hmark (enterDefine_raises name params))
    exact hblames.charges henter (located_marks henter)
  obtain rfl := enterDefine_eq_ok (located_eq_ok.mp henter)
  obtain hvalue | ⟨n, w₂, hvalue, hdefine⟩ := bind_eq_error.mp h
  · obtain ⟨m, hm, hin, hcause⟩ := expression_charges hbody hvalue
    refine ⟨m, hm, hin, fun hw => hcause (hw.entered .enabled fun symbol hsymbol slot hkind => ?_)⟩
    exact nomatch (kind_seeded hsymbol).symm.trans hkind
  · obtain ⟨slots, hgrows, -, -⟩ := (expression_builds catalog false body).turns _ n w₂ hvalue
    obtain ⟨m, hm⟩ := Option.isSome_iff_exists.mp (located_marks hdefine)
    have hblames : Blames IsOpen P Q 0 (located mark (define name params returns n)) :=
      .located (.of_mistakes hmark (define_raises name params returns n))
    obtain ⟨hin, hcause⟩ := hblames w₂ f w' hdefine
    rw [hm] at hin hcause
    exact ⟨m, hm, hin, fun _ => hcause hgrows.toWidens.isOpen⟩

/-- A fault of a statement is marked; or it is a column named twice in
the header of a definition. A header in which a type is unknown may
name a column twice as well, further on. -/
def Explains (catalog : Catalog) (P Q : Nat → Prop) (sentence : Sentence) (w : Workspace)
    (f : BuildFault) : Prop :=
  (sentence.headerRepeats = true ∧ ∃ c, f = ⟨.heading (.duplicateColumn c), none⟩) ∨
    (Charges catalog P Q w f ∧
      (sentence.headerRepeats = true → ∃ name, f.error = .undefinedType name))

/-- A header that is not understood: a type in it is unknown, or the
part of it that was read names a column twice. -/
theorem header_explains {sentence : Sentence} {marks : List Nat} (hmarks : ∀ m ∈ marks, P m)
    {repeats : Bool} (hrepeats : repeats = true → sentence.headerRepeats = true)
    (hf : (∃ m ∈ marks, ∃ name, f = ⟨.undefinedType name, some m⟩) ∨
      repeats = true ∧ ∃ c, f = ⟨.heading (.duplicateColumn c), none⟩) :
    Explains catalog P Q sentence w f := by
  obtain ⟨m, hm, name, rfl⟩ | ⟨htwice, hf⟩ := hf
  · exact .inr ⟨⟨m, rfl, hmarks m hm, fun _ => nofun⟩, fun _ => ⟨name, rfl⟩⟩
  · exact .inl ⟨hrepeats htwice, hf⟩

/-- An assignment fails in its value or where the name is taken. -/
theorem assign_charges {mark : Nat} {name : String} {value : Expr}
    (hvalue : value.Everywhere (Bears P Q)) (hmark : P mark)
    (h : (expression catalog false value >>= fun n =>
      located mark (assign catalog name n)) w = .error f w') : Charges catalog P Q w f := by
  obtain hbuilt | ⟨n, w₁, hbuilt, hassign⟩ := bind_eq_error.mp h
  · exact expression_charges hvalue hbuilt
  · have hblames : Blames (IsProper catalog) P Q 0 (located mark (assign catalog name n)) :=
      .located (.of_mistakes hmark (assign_raises catalog name n))
    obtain ⟨m, hm, hin, hcause⟩ := hblames.charges hassign (located_marks hassign)
    have hturns := (expression_builds catalog false value).turns
    exact ⟨m, hm, hin, fun hw => hcause (hturns.isProper hbuilt hw)⟩

/-- A definition reads the types of its parameters first, then the type
of its result, if one is given, and then the body. -/
theorem define_explains {mark : Nat} {name : String} {params : List (String × TypeExpr)}
    {returns : Option TypeExpr} {body : Expr}
    (hplaced : (Sentence.define mark name params returns body).IsPlaced P)
    (hbody : body.Everywhere (Bears P Q))
    (h : statement catalog (.define mark name params returns body) w = .error f w') :
    Explains catalog P Q (.define mark name params returns body) w f := by
  obtain ⟨hmark, hmarks⟩ := List.forall_mem_cons.mp hplaced.marks
  obtain ⟨hparams, hreturns⟩ := List.forall_mem_append.mp hmarks
  -- the header may fail, and then nothing of the body was built
  obtain hheading | ⟨columns, w₁, hheading, hrest⟩ := bind_eq_error.mp h
  · exact header_explains hparams (fun hrepeats => by simp [Sentence.headerRepeats, hrepeats])
      (heading_eq_error hheading)
  obtain ⟨rfl, hparamsDistinct⟩ := heading_eq_ok hheading
  cases returns with
  | none =>
      refine .inr ⟨define_charges hbody hmark hrest, fun hrepeats => ?_⟩
      simp [Sentence.headerRepeats, hparamsDistinct] at hrepeats
  | some t =>
      -- the type of the result is part of the header
      have hunderstood := typeOf_understood catalog t
      cases htype : typeOf catalog t with
      | error g =>
          simp only [htype] at hrest
          rw [htype] at hunderstood
          cases hrest
          have hmarks : ∀ m ∈ t.marks, P m := fun m hm =>
            hreturns m (List.mem_flatMap.mpr ⟨t, List.mem_singleton_self t, hm⟩)
          exact header_explains hmarks (fun hrepeats => by simp [Sentence.headerRepeats, hrepeats])
            hunderstood
      | ok type =>
          simp only [htype] at hrest
          rw [htype] at hunderstood
          refine .inr ⟨define_charges hbody hmark hrest, fun hrepeats => ?_⟩
          simp [Sentence.headerRepeats, hparamsDistinct, hunderstood.1] at hrepeats

/-- The fault of a type definition is marked at its supertype or at the
definition. -/
theorem typeDefMark_placed {mark : Nat} {supertype : Option (String × Nat)} (hmark : P mark)
    (hsupertype : ∀ s ∈ supertype, P s.2) (g : BuildFault) : P (typeDefMark mark supertype g) := by
  unfold typeDefMark
  cases supertype with
  | none => exact hmark
  | some parent =>
      dsimp only
      split
      · exact hsupertype parent rfl
      · exact hmark

/-- A type definition reads the types of its components first. What it
raises after that is at most a mistake. -/
theorem typeDef_explains {mark : Nat} {name : String} {supertype : Option (String × Nat)}
    {components : List (String × TypeExpr)}
    (hplaced : (Sentence.typeDef mark name supertype components).IsPlaced P)
    (h : statement catalog (.typeDef mark name supertype components) w = .error f w') :
    Explains catalog P Q (.typeDef mark name supertype components) w f := by
  obtain ⟨hmark, hmarks⟩ := List.forall_mem_cons.mp hplaced.marks
  obtain ⟨hsupertype, hcomponents⟩ := List.forall_mem_append.mp hmarks
  obtain hheading | ⟨columns, w₁, hheading, hrest⟩ := bind_eq_error.mp h
  · exact header_explains hcomponents id (heading_eq_error hheading)
  obtain ⟨rfl, hdistinct⟩ := heading_eq_ok hheading
  have hparent : ∀ s ∈ supertype, P s.2 := by
    rintro s rfl
    exact List.forall_mem_singleton.mp hsupertype
  cases htypeDef : typeDef catalog name (supertype.map (·.1)) columns w₁ with
  | ok s w₂ =>
      simp only [htypeDef] at hrest
      cases hrest
  | error g w₂ =>
      simp only [htypeDef] at hrest
      cases hrest
      obtain ⟨hnone, hcause⟩ := typeDef_raises (I := fun _ => True) (D := fun _ => False)
        catalog name (supertype.map (·.1)) columns w₁ g w' htypeDef
      have hcharges : Charges catalog P Q w₁ (g.orAt (typeDefMark mark supertype g)) := by
        refine ⟨_, by rw [BuildFault.orAt, hnone]; rfl, typeDefMark_placed hmark hparent g, ?_⟩
        exact fun _ hkind => (hcause trivial hkind).elim
      refine .inr ⟨hcharges, fun hrepeats => ?_⟩
      rw [Sentence.headerRepeats, hdistinct] at hrepeats
      cases hrepeats

/-- Every fault of a statement is explained by its marks or its
header. -/
theorem statement_eq_error {sentence : Sentence} (hplaced : sentence.IsPlaced P)
    (hunions : ∀ root ∈ sentence.expression?, ∀ m, (Expr.call m "union_all" []).Inside root → Q m)
    (h : statement catalog sentence w = .error f w') : Explains catalog P Q sentence w f := by
  have hbears (root : Expr) (hroot : root ∈ sentence.expression?) : root.Everywhere (Bears P Q) :=
    fun x hx => ⟨hplaced.expression root hroot x hx, fun m hm => hunions root hroot m (hm ▸ hx)⟩
  cases sentence with
  | expression value =>
      obtain hvalue | ⟨n, w₁, -, hpure⟩ := bind_eq_error.mp h
      · exact .inr ⟨expression_charges (hbears value rfl) hvalue, nofun⟩
      · cases hpure
  | assign mark name value =>
      have hmark : P mark := hplaced.marks mark List.mem_cons_self
      exact .inr ⟨assign_charges (hbears value rfl) hmark h, nofun⟩
  | define mark name params returns body => exact define_explains hplaced (hbears body rfl) h
  | typeDef mark name supertype components => exact typeDef_explains hplaced h

end

end Build

end RelQuery
