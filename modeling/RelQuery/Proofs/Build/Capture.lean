/-
Columns of the same name in the header of a segment.

A header has each name once. What the code of a segment loads by that
name is the column that the name leads to, seen from the scope of the
segment; and what the scope has recorded is the same one, wherever
further in the read took place. So there is nothing to confuse, as long
as names are all that reads go by.

A use of a block binding is different. It records the columns that the
value reads where it was bound, and in between there may be scopes that
declare other columns of the same names. The two are one in the header,
and the type is that of the first. `Sourced` says of every read which of
the two it is, and `Draws` follows the reads through building: the scopes
afterwards are those before, with the reads recorded that the trees made
meanwhile account for.
-/
import RelQuery.Proofs.Build.Reading
import RelQuery.Proofs.Context.Recording
import RelQuery.Proofs.Node.Load

namespace RelQuery

open Workspace
open Node (Wrap Within Loads Copies AllHave)

-- ============================================================= reads

/-- Below the trees the column is loaded; and if the read concerns a
scope that is open, its name leads to the column or is loaded in a copied
value. -/
structure Sourced (s : Scopes) (made : List Node) (r : Read) : Prop where
  loads : Loads made r.column
  found : r.level ≤ s.level → s.FindsAt r.column r.level ∨ Copies made r.column.name

namespace Sourced

variable {s : Scopes} {scope : Scope} {given made : List Node} {r : Read} {reads : List Read}

/-- A read that a tree accounts for is accounted for by all trees around
it. -/
theorem mono (h : Sourced s given r) (hwithin : Within given made) : Sourced s made r where
  loads := hwithin.loads h.loads
  found := fun hlevel => (h.found hlevel).imp_right hwithin.copies

/-- Reads recorded meanwhile change no name that is seen. -/
theorem of_recordAll (h : Sourced (s.recordAll reads) made r) : Sourced s made r where
  loads := h.loads
  found := by
    have hfound := h.found
    rw [Scopes.level_recordAll, Scopes.findsAt_recordAll] at hfound
    exact hfound

/-- Outside a scope its own columns are of no concern. -/
theorem of_enter (h : Sourced (s.enter scope) made r) (hadmits : s.Admits scope) :
    Sourced s made r where
  loads := h.loads
  found := by
    intro hlevel
    have hinner : r.level ≤ scope.level := by
      rw [hadmits.level]
      exact Nat.le_succ_of_le hlevel
    refine (h.found hinner).imp_left fun hfinds => hfinds.of_enter fun symbol hsymbol _ => ?_
    rw [hadmits.symbols symbol hsymbol, hadmits.level]
    omega

end Sourced

/-- The scopes have recorded reads that the trees account for, and
nothing else has happened to them. -/
def Scopes.Records (s : Scopes) (made : List Node) (s' : Scopes) : Prop :=
  ∃ reads, s' = s.recordAll reads ∧ ∀ r ∈ reads, Sourced s made r

namespace Scopes.Records

variable {s s' s'' : Scopes} {scope : Scope} {given made more : List Node}

theorem refl (s : Scopes) : s.Records made s :=
  ⟨[], rfl, fun _ h => absurd h List.not_mem_nil⟩

/-- More trees account for as much. -/
theorem mono (h : s.Records given s') (hwithin : Within given made) : s.Records made s' := by
  obtain ⟨reads, hs', hsourced⟩ := h
  exact ⟨reads, hs', fun r hr => (hsourced r hr).mono hwithin⟩

/-- What two steps record is recorded after both. -/
theorem trans (h : s.Records made s') (h' : s'.Records made s'') : s.Records made s'' := by
  obtain ⟨reads, rfl, hsourced⟩ := h
  obtain ⟨others, rfl, hsourced'⟩ := h'
  refine ⟨reads ++ others, Scopes.recordAll_append.symm, List.forall_mem_append.mpr ⟨hsourced, ?_⟩⟩
  exact fun r hr => (hsourced' r hr).of_recordAll

theorem isSeeded (h : s.Records made s') (hs : s.IsSeeded) : s'.IsSeeded := by
  obtain ⟨reads, rfl, -⟩ := h
  exact hs.recordAll reads

theorem widens (h : s.Records made s') : s.Widens s' ∧ s.Tracks s' := by
  obtain ⟨reads, rfl, -⟩ := h
  exact ⟨.foldl_record s reads, .foldl_record s reads⟩

theorem findsAt (h : s.Records made s') {column : Column} {level : Nat} :
    s'.FindsAt column level ↔ s.FindsAt column level := by
  obtain ⟨reads, rfl, -⟩ := h
  exact Scopes.findsAt_recordAll

/-- What is recorded inside a scope is recorded around it. -/
theorem of_enter (h : (s.enter scope).Records made s') (hadmits : s.Admits scope) :
    ∃ reads t, s' = t.enter (scope.recordAll reads) ∧ s.Records made t ∧
      ∀ r ∈ reads, Sourced (s.enter scope) made r := by
  obtain ⟨reads, rfl, hsourced⟩ := h
  exact ⟨reads, s.recordAll reads, recordAll_enter reads s scope,
    ⟨reads, rfl, fun r hr => (hsourced r hr).of_enter hadmits⟩, hsourced⟩

end Scopes.Records

-- ========================================================= workspaces

/-- The scopes offer the columns of their headings; bound values have
faithful headers and load what is noted as their reads. -/
structure Workspace.IsSeeded (w : Workspace) : Prop where
  scopes : w.context.scopes.IsSeeded
  locals : ∀ l ∈ w.locals, l.value.Everywhere Node.IsFaithful ∧
    ∀ r ∈ l.reads, Loads [l.value] r.column

/-- What has been recorded is accounted for by the trees made; these hold
the given ones, and load by name what names lead to, copies aside; and
they are faithful if the given ones are. -/
structure Draws (w : Workspace) (given : List Node) (w' : Workspace) (made : List Node) : Prop where
  scopes : w.context.scopes.Records made w'.context.scopes
  locals : w'.locals = w.locals
  within : Within given made
  own : ∀ v ∈ made.flatMap Node.ownLoads, v ∈ given.flatMap Node.ownLoads ∨
    (∃ level, w.context.scopes.FindsAt v level) ∨ Copies made v.name
  faithful : AllHave Node.IsFaithful given → AllHave Node.IsFaithful made

/-- In a workspace that is seeded. -/
def Follows (w : Workspace) (given : List Node) (w' : Workspace) (made : List Node) : Prop :=
  w.IsSeeded → Draws w given w' made

namespace Draws

variable {w w' w'' : Workspace} {given made more : List Node}

/-- Levels are as they were, and what is newly bound was made meanwhile. -/
theorem isSeeded (h : Draws w given w' made) (hw : w.IsSeeded) : w'.IsSeeded where
  scopes := h.scopes.isSeeded hw.scopes
  locals := by
    rw [h.locals]
    exact hw.locals

theorem wrap (w : Workspace) (h : Wrap given made) : Draws w given w made where
  scopes := .refl _
  locals := rfl
  within := h.within
  own := fun _ hv => .inl (h.ownLoads_subset hv)
  faithful := h.allHave Node.IsPlain.isFaithful

/-- Reads of the first step are accounted for by what the second one makes
of its trees. -/
theorem trans (h : Draws w given w' made) (h' : Draws w' made w'' more) :
    Draws w given w'' more where
  scopes := (h.scopes.mono h'.within).trans h'.scopes
  locals := h'.locals.trans h.locals
  within := h.within.trans h'.within
  own := by
    intro v hv
    rcases h'.own v hv with hv | ⟨level, hfinds⟩ | hcopies
    · rcases h.own v hv with hv | hfinds | hcopies
      · exact .inl hv
      · exact .inr (.inl hfinds)
      · exact .inr (.inr (h'.within.copies hcopies))
    · exact .inr (.inl ⟨level, h.scopes.findsAt.mp hfinds⟩)
    · exact .inr (.inr hcopies)
  faithful := fun hg => h'.faithful (h.faithful hg)

/-- Trees that are not looked at account for nothing new. -/
theorem frame (others : List Node) (h : Draws w given w' made) :
    Draws w (others ++ given) w' (others ++ made) := by
  have hmade : Within made (others ++ made) := fun m _ hm => Node.below_append.mpr (.inr hm)
  refine ⟨h.scopes.mono hmade, h.locals, h.within.frame others, ?_, ?_⟩
  · simp only [List.flatMap_append, List.mem_append]
    rintro v (hv | hv)
    · exact .inl (.inl hv)
    · rcases h.own v hv with hv | hfinds | hcopies
      · exact .inl (.inr hv)
      · exact .inr (.inl hfinds)
      · exact .inr (.inr (hmade.copies hcopies))
  · intro hg
    obtain ⟨hothers, hgiven⟩ := List.forall_mem_append.mp hg
    exact List.forall_mem_append.mpr ⟨hothers, h.faithful hgiven⟩

/-- A node around the given trees that loads nothing itself. -/
theorem node {n : Node} (hscopes : w'.context.scopes = w.context.scopes)
    (hlocals : w'.locals = w.locals) (hbound : n.bound = []) (hsegments : n.segments = [])
    (hcolumn : n.column? = none) : Draws w n.operands w' [n] where
  scopes := by
    rw [hscopes]
    exact .refl _
  locals := hlocals
  within := .operands n
  own := by
    intro v hv
    rw [List.flatMap_singleton, Node.ownLoads_eq, hcolumn] at hv
    exact .inl hv
  faithful := fun hg => Node.allHave_singleton.mpr
    (Node.everywhere_of_operands hbound hsegments (Node.isFaithful_of_segments hsegments) hg)

end Draws

namespace Build

variable {catalog : Catalog} {w w' w₁ w₂ : Workspace} {α : Type}

-- ============================================================= calls

/-- A step that changes counters only, and a node from what it gives. -/
theorem tallies_follows {step : Build α} (h : Tallies step) {given : List Node} {f : α → Node}
    (hoperands : ∀ a, (f a).operands = given) (hbound : ∀ a, (f a).bound = [])
    (hsegments : ∀ a, (f a).segments = []) (hcolumn : ∀ a, (f a).column? = none) :
    Relates Follows given (step >>= fun a => pure (f a)) fun n => [n] := by
  intro w n w' hn _
  obtain ⟨a, w₁, ha, hn⟩ := bind_eq_ok.mp hn
  cases hn
  obtain ⟨counters, rfl⟩ := h w a w' ha
  rw [← hoperands a]
  exact .node rfl rfl (hbound a) (hsegments a) (hcolumn a)

/-- A builtin reads what its operands read. -/
theorem builtin_follows (link : Signature) (args : List Node) (type : DataType) :
    Relates Follows args (noteWindow link >>= fun _ => allocateFor link >>= fun slot =>
      pure (.call link args type slot)) fun n => [n] := by
  have hslot : Tallies (noteWindow link >>= fun _ => allocateFor link) := by
    intro w slot w' h
    obtain ⟨u, w₁, hnote, h⟩ := bind_eq_ok.mp h
    obtain ⟨counters, rfl⟩ := noteWindow_tallies link w u w₁ hnote
    obtain ⟨counters', rfl⟩ := allocateFor_tallies link _ slot w' h
    exact ⟨counters', rfl⟩
  have hcall := tallies_follows hslot (f := fun slot => .call link args type slot) (fun _ => rfl)
    (fun _ => rfl) (fun _ => rfl) fun _ => rfl
  rwa [bind_assoc] at hcall

theorem function_follows (link : Signature) (args : List Node) (type : DataType) :
    Relates Follows args (allocateFor link >>= fun slot => pure (.function link args type slot))
      fun n => [n] :=
  tallies_follows (allocateFor_tallies link) (f := fun slot => .function link args type slot)
    (fun _ => rfl) (fun _ => rfl) (fun _ => rfl) fun _ => rfl

theorem fold_follows (op : String) (arg : Node) (type : DataType) :
    Relates Follows [arg] (allocate "fold" 1 >>= fun slot => pure (.fold op slot arg type))
      fun n => [n] :=
  tallies_follows (allocate_tallies _ _) (f := fun slot => .fold op slot arg type)
    (fun _ => rfl) (fun _ => rfl) (fun _ => rfl) fun _ => rfl

-- ============================================================= names

/-- A use of a block binding records the reads of the value, all of them
in the copy. -/
theorem useLocal_follows (name : String) (slot : Nat) :
    Relates Follows [] (useLocal name slot) fun n => [n] := by
  intro w n w' h hw
  obtain ⟨bound, copy, hbound, rfl, hcopy⟩ := useLocal_steps h
  obtain ⟨hfaithful, hreads⟩ := hw.locals bound (List.mem_of_getElem? hbound)
  -- the copy loads all that the value loads, and is faithful if that is
  obtain ⟨⟨counters, rfl⟩, hloads, hsame⟩ := relocate_related (R := fun m m' =>
    (∀ column, Loads [m] column → Loads [m'] column) ∧
      (m.Everywhere Node.IsFaithful → m'.Everywhere Node.IsFaithful))
    (fun _ _ => Node.copy_faithful) hcopy
  -- the reads of the value are recorded again, each loaded in the copy
  refine ⟨⟨bound.reads, rfl, fun r hr => ?_⟩, rfl, .nil, fun v hv => ?_, fun _ => ?_⟩
  · have hcolumn := hloads r.column (hreads r hr)
    exact ⟨Node.loads_inlined hcolumn, fun _ => .inr (Node.copies_inlined hcolumn)⟩
  · rw [List.flatMap_singleton, Node.ownLoads_eq] at hv
    have hcopied : v ∈ copy.ownLoads := by simpa [Node.column?, Node.operands] using hv
    exact .inr (.inr (Node.copies_inlined (Node.loads_of_ownLoads hcopied)))
  · exact Node.allHave_singleton.mpr (Node.everywhere_of_operands rfl rfl
      (Node.isFaithful_of_segments rfl) (Node.allHave_singleton.mpr (hsame hfaithful)))

/-- A lookup finds a symbol and records the read of it. -/
theorem resolve_reads {name : String} {found : Option Symbol}
    (h : resolve name w = .ok found w') : found = w.context.scopes.find? name ∧
      w' = { w with context := { w.context with
        scopes := w.context.scopes.recordAll (w.context.scopes.readOf name) } } := by
  have hrun : found = (w.context.scopes.resolve name).1 ∧ w' = { w with context := { w.context with
      scopes := (w.context.scopes.resolve name).2 } } := by
    cases h
    exact ⟨rfl, rfl⟩
  rwa [Scopes.resolve_eq] at hrun

/-- A variable that loads nothing from a row. -/
theorem variable_follows {name : String} {source : VariableSource} {type : DataType}
    (hsource : source.isLookup = false) :
    Relates Follows [] (pure (.variable name source type)) fun n => [n] := by
  intro w n w' h _
  cases h
  refine Draws.node (n := .variable name source type) rfl rfl rfl rfl ?_
  rw [Node.column?, hsource]
  rfl

/-- The column that a name leads to. -/
theorem column_draws {name : String} {source : VariableSource} {symbol : Symbol}
    (hfind : w.context.scopes.find? name = some symbol) (hlookup : symbol.kind.isLookup = true)
    (hsource : source.isLookup = true) :
    Draws w [] { w with context := { w.context with
      scopes := w.context.scopes.recordAll (w.context.scopes.readOf name) } }
      [.variable symbol.name source symbol.type] := by
  have hcolumn : (Node.variable symbol.name source symbol.type).column?
      = some ⟨symbol.name, symbol.type⟩ := by
    rw [Node.column?, hsource]
    rfl
  have hreads (r : Read) (hr : r ∈ w.context.scopes.readOf name) :
      r.column = ⟨symbol.name, symbol.type⟩ := by
    obtain ⟨other, hother, -, rfl⟩ := Scopes.mem_readOf hr
    rw [hfind] at hother
    cases hother
    rfl
  refine ⟨⟨_, rfl, fun r hr => ⟨?_, fun _ => .inl (Scopes.findsAt_of_readOf hr)⟩⟩, rfl, .nil,
    fun v hv => ?_, fun _ => ?_⟩
  · rw [hreads r hr]
    exact ⟨_, Node.below_singleton.mpr (Node.mem_nodes_iff.mpr (.inl rfl)),
      Node.mem_load_of_column? hcolumn⟩
  · rw [List.flatMap_singleton, Node.ownLoads_eq, hcolumn] at hv
    obtain rfl : v = ⟨symbol.name, symbol.type⟩ := List.mem_singleton.mp hv
    refine .inr (.inl ⟨symbol.level, symbol, ?_, hlookup, rfl, rfl⟩)
    rw [Scopes.find?_name hfind]
    exact hfind
  · exact Node.allHave_singleton.mpr (Node.everywhere_of_operands rfl rfl
      (Node.isFaithful_of_segments rfl) Node.allHave_nil)

/-- What the catalog holds is not read from a row. -/
theorem useGlobal_follows (catalog : Catalog) (name : String) :
    Relates Follows [] (useGlobal catalog name) fun n => [n] := by
  unfold useGlobal
  split
  · split
    · exact variable_follows rfl
    · exact variable_follows rfl
    · exact .throw _
  · split
    · exact .throw _
    · exact .throw _

/-- A name that is found in a scope leads to what is read. -/
theorem useName_follows (catalog : Catalog) (name : String) :
    Relates Follows [] (useName catalog name) fun n => [n] := by
  intro w n w' h hw
  obtain ⟨found, w₁, hresolve, h⟩ := bind_eq_ok.mp h
  obtain ⟨rfl, rfl⟩ := resolve_reads hresolve
  -- a name that is none of a column records nothing
  have hquiet (hread : w.context.scopes.readOf name = []) : { w with context := { w.context with
      scopes := w.context.scopes.recordAll (w.context.scopes.readOf name) } } = w := by
    rw [hread]
    rfl
  cases hfind : w.context.scopes.find? name with
  | none =>
      rw [hfind] at h
      rw [hquiet (by rw [Scopes.readOf, hfind])] at h
      exact useGlobal_follows catalog name w n w' h hw
  | some symbol =>
      rw [hfind] at h
      have hbound (hlookup : symbol.kind.isLookup = false) : w.context.scopes.readOf name = [] := by
        rw [Scopes.readOf, hfind]
        dsimp only
        rw [hlookup]
        rfl
      have hcolumn (source : VariableSource) (hsource : source.isLookup = true)
          (hlookup : symbol.kind.isLookup = true)
          (hn : (pure (.variable symbol.name source symbol.type) : Build Node) { w with
            context := { w.context with
              scopes := w.context.scopes.recordAll (w.context.scopes.readOf name) } } = .ok n w') :
          Draws w [] w' [n] := by
        cases hn
        exact column_draws hfind hlookup hsource
      dsimp only [useSymbol] at h
      generalize hkind : symbol.kind = kind at h hbound hcolumn
      cases kind with
      | field => exact hcolumn .field rfl rfl h
      | parameter => exact hcolumn .parameter rfl rfl h
      | component => exact hcolumn .component rfl rfl h
      | catalog =>
          rw [hquiet (hbound rfl)] at h
          exact variable_follows rfl w n w' h hw
      | bound slot =>
          rw [hquiet (hbound rfl)] at h
          exact useLocal_follows _ slot w n w' h hw
      | operator => exact absurd h fail_ne_ok
      | deferred => exact absurd h fail_ne_ok
      | userType => exact absurd h fail_ne_ok

/-- The row being looked at is the nearest one; what the names of its
columns lead to is read, one after another. -/
theorem currentRow_eq_ok {n : Node} (h : currentRow w = .ok n w') :
    ∃ heading, w.context.scopes.heading? = some heading ∧ n = .currentRow (.tuple heading) ∧
      w' = { w with context := { w.context with
        scopes := w.context.scopes.recordAll
            (heading.names.flatMap w.context.scopes.readOf) } } := by
  have hloop (names : List String) : ∀ w u w', (forIn names PUnit.unit fun name _ =>
      discard (resolve name) >>= fun _ => pure (ForInStep.yield PUnit.unit) : Build PUnit) w
        = .ok u w' →
      w' = { w with context := { w.context with
        scopes := w.context.scopes.recordAll (names.flatMap w.context.scopes.readOf) } } := by
    induction names with
    | nil =>
        intro w u w' h
        cases h
        rfl
    | cons name names ih =>
        intro w u w' h
        rw [List.forIn_cons] at h
        obtain ⟨next, w₁, hnext, h⟩ := bind_eq_ok.mp h
        obtain ⟨v, w₂, hdiscard, hnext⟩ := bind_eq_ok.mp hnext
        obtain ⟨found, hresolve⟩ := discard_eq_ok.mp hdiscard
        cases hnext
        obtain ⟨-, rfl⟩ := resolve_reads hresolve
        obtain rfl := ih _ u w' h
        -- reads that were recorded change nothing about where names lead
        have hsame (reads : List Read) :
            (w.context.scopes.recordAll reads).readOf = w.context.scopes.readOf := by
          funext other
          rw [Scopes.readOf, Scopes.readOf, Scopes.find?_recordAll]
        rw [List.flatMap_cons, Scopes.recordAll_append, hsame]
  rw [currentRow, get_bind_apply] at h
  cases hheading : w.context.scopes.heading? with
  | none =>
      rw [hheading] at h
      exact absurd h fail_ne_ok
  | some heading =>
      rw [hheading] at h
      obtain ⟨u, w₁, hrun, h⟩ := bind_eq_ok.mp h
      cases h
      exact ⟨heading, rfl, rfl, hloop _ w u w' hrun⟩

/-- The row being looked at reads every column of the nearest row. -/
theorem currentRow_follows : Relates Follows [] currentRow fun n => [n] := by
  intro w n w' h hw
  obtain ⟨heading, hheading, rfl, rfl⟩ := currentRow_eq_ok h
  refine ⟨⟨_, rfl, fun r hr => ?_⟩, rfl, .nil, fun v hv => absurd hv List.not_mem_nil, fun _ => ?_⟩
  · obtain ⟨name, hname, hr⟩ := List.mem_flatMap.mp hr
    refine ⟨⟨.currentRow (.tuple heading),
      Node.below_singleton.mpr (Node.mem_nodes_iff.mpr (.inl rfl)), ?_⟩,
      fun _ => .inl (Scopes.findsAt_of_readOf hr)⟩
    obtain ⟨symbol, hfind, hlookup, rfl⟩ := Scopes.mem_readOf hr
    exact Scope.mem_nearest_heading hw.scopes.seeded hheading hname hfind hlookup
  · exact Node.allHave_singleton.mpr (Node.everywhere_of_operands rfl rfl
      (Node.isFaithful_of_segments rfl) Node.allHave_nil)

-- ============================================================ levels

/-- The level that was opened is the one that is left. -/
theorem leave_enter {captured : Captured} {s : Scopes} {scope : Scope}
    (hscopes : w.context.scopes = s.enter scope) (h : leave w = .ok captured w') :
    w'.context.scopes = s ∧ captured.scope = scope ∧ w'.locals = w.locals := by
  obtain ⟨parent, rest, entry, entries, houter, -, rfl, rfl⟩ := leave_eq_ok h
  rw [hscopes] at houter
  cases houter
  refine ⟨?_, ?_, rfl⟩
  · show { w.context.scopes with current := s.current, outer := s.outer } = s
    rw [hscopes]
    rfl
  · show w.context.scopes.current = scope
    rw [hscopes]
    rfl

/-- What a level has recorded when it closes is loaded by its body, and
was found there or is loaded in a copied value. -/
theorem level_sources {scope : Scope} {body : Node} {captured : Captured}
    (hopen : w₁.context.scopes = w.context.scopes.enter scope)
    (hadmits : w.context.scopes.Admits scope) (hlookup : scope.lookup = [])
    (h : Draws w₁ [] w₂ [body]) (hleave : leave w₂ = .ok captured w') :
    ∀ d ∈ captured.scope.lookup, Loads [body] d ∧
      ((∃ level, w₁.context.scopes.FindsAt d level) ∨ Node.Copies [body] d.name) := by
  have hscopes := h.scopes
  rw [hopen] at hscopes ⊢
  obtain ⟨reads, t, hinner, -, hsourced⟩ := hscopes.of_enter hadmits
  obtain ⟨-, hcaptured, -⟩ := leave_enter hinner hleave
  intro d hd
  rw [hcaptured] at hd
  rcases Scope.mem_lookup_recordAll hd with hd | ⟨r, hr, rfl, hlevel⟩
  · rw [hlookup] at hd
    exact absurd hd List.not_mem_nil
  · exact ⟨(hsourced r hr).loads,
      ((hsourced r hr).found hlevel).imp_left fun hfinds => ⟨r.level, hfinds⟩⟩

/-- A level that is opened and closed again around a body. Its reads are
recorded around it, and the segment of the body is faithful: what the
level has recorded and what the body loads by name are found in the same
way. -/
theorem level_draws {scope : Scope} {body : Node} {captured : Captured}
    (hopen : w₁.context.scopes = w.context.scopes.enter scope)
    (hadmits : w.context.scopes.Admits scope) (hlookup : scope.lookup = [])
    (h : Draws w₁ [] w₂ [body]) (hleave : leave w₂ = .ok captured w') :
    w.context.scopes.Records [body] w'.context.scopes ∧ w'.locals = w₁.locals ∧
      ∀ label accums window,
        (Segment.make label body captured.scope.lookup accums window).IsFaithful := by
  have hsources := level_sources hopen hadmits hlookup h hleave
  have hscopes := h.scopes
  rw [hopen] at hscopes
  obtain ⟨reads, t, hinner, hrecords, -⟩ := hscopes.of_enter hadmits
  obtain ⟨hclosed, hcaptured, hlocals⟩ := leave_enter hinner hleave
  refine ⟨by rwa [hclosed], hlocals.trans h.locals, fun label accums window => ⟨?_, ?_⟩⟩
  · show (captured.scope.lookup.names).Nodup
    rw [hcaptured]
    refine Scope.nodup_lookup_recordAll ?_
    rw [hlookup]
    exact List.nodup_nil
  · intro v hv d hd hname
    obtain ⟨hloads, ⟨level, hfinds⟩ | hcopies⟩ := hsources d hd
    · have hv : v ∈ [body].flatMap Node.ownLoads := by rwa [List.flatMap_singleton]
      rcases h.own v hv with hv | ⟨level', hfinds'⟩ | hcopies
      · exact absurd hv List.not_mem_nil
      · exact .inl (hfinds.unique hfinds' hname)
      · exact .inr ⟨hloads, hcopies⟩
    · rw [hname] at hcopies
      exact .inr ⟨hloads, hcopies⟩

/-- A scope begins with nothing read. -/
theorem lookup_ofType (type : Option DataType) (level : Nat) :
    (Scope.ofType type level).lookup = [] := by
  unfold Scope.ofType
  split
  · rfl
  · rfl
  · rfl
  · rfl

/-- A level for a type declares the columns of the type. -/
theorem IsSeeded.opened (hw : w.IsSeeded) (type : Option DataType) (mode : FoldMode) :
    (w.opened type mode).IsSeeded :=
  ⟨hw.scopes.enter_ofType type, hw.locals⟩

/-- The header of a predicate has what its body reads of the row. -/
theorem restrict_follows (base : Node) (predicate : Expr)
    (h : Relates Follows [] (expression catalog false predicate) fun n => [n]) :
    Relates Follows [base] (enterRestrict base >>= fun _ => expression catalog false predicate >>=
      fun p => restrict base p) fun n => [n] := by
  intro w n w' hn hw
  obtain ⟨p, w₂, captured, -, hp, hleave, rfl⟩ := restriction_steps hn
  have hdraws := h _ p w₂ hp (IsSeeded.opened hw _ _)
  obtain ⟨hrecords, hlocals, hsegment⟩ := level_draws (w := w) rfl (Scopes.admits_ofType _ _)
    (lookup_ofType _ _) hdraws hleave
  have hbody := Node.allHave_singleton.mp (hdraws.faithful Node.allHave_nil)
  refine ⟨hrecords.mono (.of_parts ?_), hlocals, .operands (.restrict base _), fun v hv => .inl ?_,
    fun hg => ?_⟩
  · exact List.cons_subset.mpr ⟨List.mem_cons_of_mem _ List.mem_cons_self, List.nil_subset _⟩
  · rw [List.flatMap_singleton, Node.ownLoads_eq] at hv
    exact hv
  · rw [Node.allHave_singleton] at hg ⊢
    rw [Node.everywhere_iff]
    exact ⟨List.forall_mem_singleton.mpr (hsegment _ _ _), List.forall_mem_singleton.mpr hg,
      fun _ h => absurd h List.not_mem_nil, List.forall_mem_singleton.mpr hbody⟩

-- ============================================================ blocks

/-- The scope of a block that has been opened inside `s`. -/
structure IsBlock (s : Scopes) (scope : Scope) : Prop where
  admits : s.Admits scope
  seeded : scope.IsSeeded
  bound : ∀ symbol ∈ scope.symbols, symbol.kind.isLookup = false

namespace IsBlock

variable {s : Scopes} {scope : Scope}

theorem opened (s : Scopes) : IsBlock s (.ofType none (s.level + 1)) where
  admits := Scopes.admits_ofType s none
  seeded := Scope.isSeeded_ofType _ _
  bound := fun _ h => absurd h List.not_mem_nil

/-- Reads are noted without a change of what is declared. -/
theorem recordAll (h : IsBlock s scope) (reads : List Read) :
    IsBlock (s.recordAll reads) (scope.recordAll reads) := by
  have hwidens := scope.recordAll_widens reads
  refine ⟨⟨?_, ?_⟩, h.seeded.widens hwidens, ?_⟩
  · rw [hwidens.level, Scopes.level_recordAll]
    exact h.admits.level
  · rw [hwidens.level, hwidens.symbols]
    exact h.admits.symbols
  · rw [hwidens.symbols]
    exact h.bound

theorem add (h : IsBlock s scope) {symbol : Symbol} (hkind : symbol.kind.isLookup = false)
    (hlevel : symbol.level = scope.level) :
    IsBlock s { scope with symbols := scope.symbols ++ [symbol] } where
  admits := ⟨h.admits.level, List.forall_mem_append.mpr
    ⟨h.admits.symbols, List.forall_mem_singleton.mpr hlevel⟩⟩
  seeded := h.seeded.add hkind
  bound := List.forall_mem_append.mpr ⟨h.bound, List.forall_mem_singleton.mpr hkind⟩

end IsBlock

/-- Inside a block that was opened in `s`, values have been bound; what
is recorded around the block they account for. -/
structure Binding.Draws (s : Scopes) (w w' : Workspace) (t : Scopes) (scope : Scope)
    (more : List LocalSlot) : Prop where
  inside : w'.context.scopes = t.enter scope
  isBlock : IsBlock t scope
  scopes : s.Records (more.map (·.value)) t
  locals : w'.locals = w.locals ++ more
  seeded : w'.IsSeeded

/-- Bindings in a row, each seen from the scope that the ones before it
have left. -/
theorem Binding.Draws.append {s t t' : Scopes} {scope scope' : Scope} {xs ys : List LocalSlot}
    (h : Binding.Draws s w w₁ t scope xs) (h' : Binding.Draws t w₁ w' t' scope' ys) :
    Binding.Draws s w w' t' scope' (xs ++ ys) where
  inside := h'.inside
  isBlock := h'.isBlock
  scopes := by
    rw [List.map_append]
    refine (h.scopes.mono ?_).trans (h'.scopes.mono ?_)
    · exact fun m _ hm => Node.below_append.mpr (.inl hm)
    · exact fun m _ hm => Node.below_append.mpr (.inr hm)
  locals := by rw [h'.locals, h.locals, List.append_assoc]
  seeded := h'.seeded

/-- A block offers no columns, so names lead to those around it. -/
theorem Binding.Draws.findsAt {s t : Scopes} {scope : Scope} {more : List LocalSlot} {c : Column}
    {level : Nat} (h : Binding.Draws s w w' t scope more)
    (hfinds : w'.context.scopes.FindsAt c level) : s.FindsAt c level := by
  rw [h.inside] at hfinds
  refine h.scopes.findsAt.mp (hfinds.of_enter fun symbol hsymbol hlookup => ?_)
  rw [h.isBlock.bound symbol hsymbol] at hlookup
  cases hlookup

/-- The bindings of a block draw on the scopes around it. -/
def BindsFollow (catalog : Catalog) (bindings : List Binding) : Prop :=
  ∀ w u w' s scope, blockBindings catalog bindings w = .ok u w' →
    w.context.scopes = s.enter scope → s.IsSeeded → IsBlock s scope → w.IsSeeded →
    ∃ t scope' more, Binding.Draws s w w' t scope' more

/-- One binding: the tracker has seen the reads of its value. -/
theorem bindLocal_draws {name : String} {value : Expr} {mark : Nat} {s : Scopes} {scope : Scope}
    {u : Unit} (h : Relates Follows [] (expression catalog false value) fun n => [n])
    (hscopes : w.context.scopes = s.enter scope) (hs : s.IsSeeded) (hblock : IsBlock s scope)
    (hw : w.IsSeeded) (hu : (beginLocal >>= fun _ => expression catalog false value >>= fun n =>
      located mark (bindLocal name n)) w = .ok u w') :
    ∃ t scope' l, Binding.Draws s w w' t scope' [l] := by
  -- a tracker is opened for the value alone
  obtain ⟨n, w₂, hn, hbind⟩ := binding_steps hu
  have htracker : w.binding.context.scopes = s.trackReads.enter scope := by
    show w.context.scopes.trackReads = _
    rw [hscopes]
    rfl
  have htracked : w.binding.IsSeeded :=
    ⟨⟨⟨hw.scopes.levels, hw.scopes.symbols⟩, hw.scopes.seeded⟩, hw.locals⟩
  have hdraws := h _ n w₂ hn htracked
  obtain ⟨slots, w₃, hgrows, -, -, rfl⟩ := expression_builds catalog false value _ n w₂ hn
  obtain ⟨reads, hinner, hsourced⟩ := hdraws.scopes
  -- the reads of the value are recorded in the scopes and seen by the tracker
  rw [htracker] at hinner hsourced
  rw [Scopes.recordAll_enter, Scopes.recordAll_trackReads] at hinner
  obtain ⟨symbol, hkind, hlevel, rfl⟩ := bindLocal_eq_ok hgrows.pending
    (congrArg Scopes.trackers hinner) hbind
  rw [hinner] at hlevel
  have hfaithful := Node.allHave_singleton.mp (hdraws.faithful Node.allHave_nil)
  have hsourced' (r : Read) (hr : r ∈ reads) : Sourced s [n] r := by
    have houter := (hsourced r hr).of_enter ⟨hblock.admits.level, hblock.admits.symbols⟩
    exact ⟨houter.loads, houter.found⟩
  -- the name is then added to the block, with the reads in it
  have hadded : IsBlock (s.recordAll reads) { scope.recordAll reads with
      symbols := (scope.recordAll reads).symbols ++ [symbol] } :=
    (hblock.recordAll reads).add hkind hlevel
  refine ⟨s.recordAll reads, _, ⟨name, n, _⟩, ?_, hadded, ⟨reads, rfl, hsourced'⟩,
    congrArg (· ++ _) hdraws.locals, ?_, ?_⟩
  · rw [hinner]
    rfl
  · rw [hinner]
    exact (hs.recordAll reads).enter hadded.admits hadded.seeded
  -- what the tracker has seen is what the value has read, no more
  · rw [hdraws.locals]
    refine List.forall_mem_append.mpr ⟨hw.locals, List.forall_mem_singleton.mpr
      ⟨hfaithful, fun r hr => ?_⟩⟩
    obtain ⟨hseen, -⟩ := List.mem_filter.mp hr
    exact (hsourced r ((Scopes.mem_foldl_track hseen).resolve_left List.not_mem_nil)).loads

/-- A binding keeps what its value reads for each of its uses. -/
theorem bindsFollow_cons {name : String} {value : Expr} {rest : List Binding}
    (h : Relates Follows [] (expression catalog false value) fun n => [n])
    (hrest : BindsFollow catalog rest) : BindsFollow catalog (⟨name, value⟩ :: rest) := by
  intro w u w' s scope hu hscopes hs hblock hw
  obtain ⟨u₂, w₃, hrun, hu⟩ := blockBindings_steps hu
  obtain ⟨t, scope₁, l, hfirst⟩ := bindLocal_draws h hscopes hs hblock hw hrun
  obtain ⟨t', scope₂, more, hmore⟩ := hrest w₃ u w' t scope₁ hu hfirst.inside
    (hfirst.scopes.isSeeded hs) hfirst.isBlock hfirst.seeded
  exact ⟨t', scope₂, l :: more, hfirst.append hmore⟩

/-- A block loads by name what its body does: the scope of the block
offers no columns. -/
theorem block_follows {bindings : List Binding} {body : Expr}
    (hbindings : BindsFollow catalog bindings)
    (h : Relates Follows [] (expression catalog false body) fun n => [n]) :
    Relates Follows [] (enterBlock >>= fun first => blockBindings catalog bindings >>= fun _ =>
      expression catalog false body >>= fun n => block first n) fun n => [n] := by
  intro w n w' hn hw
  obtain ⟨u, w₂, value, w₃, captured, w₄, hbind, hvalue, hleave, rfl, rfl⟩ := block_steps hn
  -- the scope of the block holds the locals that the bindings have made
  obtain ⟨t, scope, more, hbound⟩ := hbindings _ u w₂ w.context.scopes _ hbind rfl hw.scopes
    (.opened _) (IsSeeded.opened hw none .inherit)
  have hdraws := h w₂ value w₃ hvalue hbound.seeded
  have hscopes := hdraws.scopes
  rw [hbound.inside] at hscopes
  obtain ⟨reads, t', hinner, hrecords, -⟩ := hscopes.of_enter hbound.isBlock.admits
  -- leaving closes it, so the reads that it saw are those of the scopes around
  obtain ⟨hclosed, -, hlocals⟩ := leave_enter hinner hleave
  have hall : w₄.locals = w.locals ++ more := by
    rw [hlocals, hdraws.locals, hbound.locals]
    rfl
  rw [hall, List.drop_left, List.take_left]
  -- both the values and the body stand within the block
  have hbody : Within [value] [.block (more.map fun l => ⟨l.name, l.value⟩) value] :=
    .operands (.block _ value)
  have hvalues : Within (more.map (·.value))
      [.block (more.map fun l => ⟨l.name, l.value⟩) value] := by
    refine .of_parts fun v hv => ?_
    refine List.mem_append_right _ (List.mem_append_left _ ?_)
    rw [Node.bound, List.map_map]
    exact hv
  refine ⟨?_, rfl, .nil, fun v hv => .inr ?_, fun _ => ?_⟩
  · rw [hclosed]
    exact (hbound.scopes.mono hvalues).trans (hrecords.mono hbody)
  -- the body loads from outside what it loads at all, as the block offers no
  -- columns
  · rw [List.flatMap_singleton, Node.ownLoads_eq] at hv
    rcases hdraws.own v hv with hv | ⟨level, hfinds⟩ | hcopies
    · exact absurd hv List.not_mem_nil
    · exact .inl ⟨level, hbound.findsAt hfinds⟩
    · exact .inr (hbody.copies hcopies)
  · rw [Node.allHave_singleton, Node.everywhere_iff]
    refine ⟨Node.isFaithful_of_segments rfl, hdraws.faithful Node.allHave_nil, fun v hv => ?_,
      fun _ h => absurd h List.not_mem_nil⟩
    rw [Node.bound, List.map_map] at hv
    obtain ⟨l, hl, rfl⟩ := List.mem_map.mp hv
    refine (hbound.seeded.locals l ?_).1
    rw [hbound.locals]
    exact List.mem_append_right _ hl

-- ======================================================= field lists

/-- Segments have been made that account for what was recorded, and they
are faithful. -/
structure DrawsSegments (w : Workspace) (segments : List Segment) (w' : Workspace) : Prop where
  scopes : w.context.scopes.Records (segments.map (·.body)) w'.context.scopes
  locals : w'.locals = w.locals
  faithful : ∀ s ∈ segments, s.IsFaithful ∧ s.body.Everywhere Node.IsFaithful

namespace DrawsSegments

variable {xs ys : List Segment}

theorem nil (w : Workspace) : DrawsSegments w [] w :=
  ⟨.refl _, rfl, fun _ hs => absurd hs List.not_mem_nil⟩

/-- Fields in a row, each with a scope of its own. -/
theorem append (h : DrawsSegments w xs w₁) (h' : DrawsSegments w₁ ys w') :
    DrawsSegments w (xs ++ ys) w' where
  scopes := by
    rw [List.map_append]
    refine (h.scopes.mono ?_).trans (h'.scopes.mono ?_)
    · exact fun m _ hm => Node.below_append.mpr (.inl hm)
    · exact fun m _ hm => Node.below_append.mpr (.inr hm)
  locals := h'.locals.trans h.locals
  faithful := List.forall_mem_append.mpr ⟨h.faithful, h'.faithful⟩

theorem isSeeded (h : DrawsSegments w xs w') (hw : w.IsSeeded) : w'.IsSeeded :=
  ⟨h.scopes.isSeeded hw.scopes, by rw [h.locals]; exact hw.locals⟩

end DrawsSegments

/-- A key loads the column that its name leads to. -/
theorem orderKey_draws {name : String} {descending grouped : Bool} {segment : Segment}
    (h : orderKey name descending grouped w = .ok segment w') : DrawsSegments w [segment] w' := by
  obtain ⟨found, w₁, hresolve, h⟩ := bind_eq_ok.mp h
  obtain ⟨rfl, rfl⟩ := resolve_reads hresolve
  cases hfind : w.context.scopes.find? name with
  | none =>
      rw [hfind] at h
      exact absurd h fail_ne_ok
  | some symbol =>
      rw [hfind] at h
      dsimp only at h
      split at h
      -- what the key loads is a column, recorded as any other
      · rename_i hkind
        have hlookup : symbol.kind.isLookup = true := by
          rcases Bool.or_eq_true_iff.mp hkind with hkind | hkind
          · rw [of_decide_eq_true hkind]
            rfl
          · rw [of_decide_eq_true hkind]
            rfl
        obtain rfl := Scopes.find?_name hfind
        have hsource : VariableSource.isLookup .field = true := rfl
        have hdraws := column_draws hfind hlookup hsource
        cases h
        refine ⟨hdraws.scopes, rfl, List.forall_mem_singleton.mpr ⟨?_, ?_⟩⟩
        · exact Segment.IsLoad.isFaithful ⟨_, _, rfl, rfl, rfl⟩
        · exact Node.allHave_singleton.mp (hdraws.faithful Node.allHave_nil)
      · exact absurd h fail_ne_ok

/-- A key reads one column, which is that of its load. -/
theorem orderKeys_draws {keys : List OrderKey} {segments : List Segment}
    (h : orderKeys keys w = .ok segments w') : DrawsSegments w segments w' := by
  induction keys generalizing w segments with
  | nil =>
      cases h
      exact .nil w'
  | cons key rest ih =>
      obtain ⟨segment, others, w₁, hkey, hrest, rfl⟩ := orderKeys_steps h
      exact (orderKey_draws hkey).append (ih hrest)

/-- The fields of a list are faithful segments. -/
def FollowsFields (w : Workspace) (segments : List Segment) (w' : Workspace) : Prop :=
  w.IsSeeded → DrawsSegments w segments w'

/-- A computed field is a level of its own. -/
theorem computedField_draws {name : String} {mark : Nat} {value : Expr} {segment : Segment}
    (h : Relates Follows [] (expression catalog false value) fun n => [n]) (hw : w.IsSeeded)
    (hs : computedField catalog name mark value w = .ok segment w') :
    DrawsSegments w [segment] w' := by
  obtain ⟨f, frames, node, w₂, captured, -, hnode, hleave, rfl⟩ := field_steps hs
  have hdraws := h _ node w₂ hnode ⟨hw.scopes.enter_ofType f.base, hw.locals⟩
  obtain ⟨hrecords, hlocals, hsegment⟩ := level_draws (w := w) rfl (Scopes.admits_ofType _ _)
    (lookup_ofType _ _) hdraws hleave
  have hbody := Node.allHave_singleton.mp (hdraws.faithful Node.allHave_nil)
  exact ⟨hrecords, hlocals, List.forall_mem_singleton.mpr ⟨hsegment _ _ _, hbody⟩⟩

/-- The expression draws on the scopes around the level that it may leave
open. -/
def BuildsFollow (catalog : Catalog) (keepOpen : Bool) (e : Expr) : Prop :=
  ∀ w n w', expression catalog keepOpen e w = .ok n w' → w.IsSeeded →
    ∃ w₁, Draws w [] w₁ [n] ∧ Leaves (keepOpen && e.isFields) w₁ w'

/-- A list from its level on, which records around it what its segments
account for. -/
theorem list_draws {w₀ w₃ w₄ : Workspace} {node n : Node} {t : DataType} {f : FieldFrame}
    {order computed : List Segment} {captured : Captured}
    (hsegments : DrawsSegments { w₀.opened t .enabled with frames := f :: w₀.frames }
      (order ++ computed) w₃)
    (hleave : leave { w₃ with frames := w₃.frames.tail } = .ok captured w₄)
    (hover : ListOver node order computed n) : Draws w₀ [node] w₄ [n] := by
  obtain ⟨reads, s, hinner, hrecords, -⟩ := hsegments.scopes.of_enter (Scopes.admits_ofType _ _)
  obtain ⟨hclosed, -, hlocals⟩ :=
    leave_enter (w := { w₃ with frames := w₃.frames.tail }) hinner hleave
  -- the list records what its segments do, and leaves the locals as they were
  refine ⟨?_, hlocals.trans hsegments.locals, ?_, fun v hv => .inl ?_, fun hg => ?_⟩
  · rw [hclosed]
    refine hrecords.mono (.of_parts fun body hbody => ?_)
    obtain ⟨segment, hsegment, rfl⟩ := List.mem_map.mp hbody
    refine List.mem_append_right _ (List.mem_append_right _ ?_)
    exact List.mem_map_of_mem (hover.holds hsegment)
  · rw [← hover.operands]
    exact .operands n
  · rw [List.flatMap_singleton, Node.ownLoads_eq, hover.isList.column?_eq, hover.operands] at hv
    exact hv
  -- its segments are keys, computed fields, and loads for the other columns
  · have hmade : ∀ s ∈ n.segments, s.IsFaithful ∧ s.body.Everywhere Node.IsFaithful := by
      intro s hs
      rcases hover.segments s hs with hs | hs | hs
      · exact hsegments.faithful s (List.mem_append_left _ hs)
      · exact hsegments.faithful s (List.mem_append_right _ hs)
      · refine ⟨hs.isFaithful, ?_⟩
        obtain ⟨name, type, hbody, -, -⟩ := hs
        rw [hbody]
        exact Node.everywhere_of_operands rfl rfl (Node.isFaithful_of_segments rfl) Node.allHave_nil
    rw [Node.allHave_singleton, Node.everywhere_iff, hover.operands, hover.isList.bound_eq]
    exact ⟨fun s hs => (hmade s hs).1, hg, fun _ h => absurd h List.not_mem_nil,
      fun s hs => (hmade s hs).2⟩

/-- A list reads what its fields read of the row around it. -/
theorem fields_follow {keepOpen : Bool} {mark : Nat} {base : Expr} {allBut : Bool}
    {order : List OrderKey} {entries : List FieldEntry} (hbase : BuildsFollow catalog true base)
    (hentries : RelatesFields catalog FollowsFields entries) :
    BuildsFollow catalog keepOpen (.fields mark base ⟨allBut, order, entries⟩) := by
  intro w n w' hn hw
  obtain ⟨node, w₁, hnode, hlist⟩ := bind_eq_ok.mp (located_eq_ok.mp hn)
  obtain ⟨w₀, hdraws, hleft⟩ := hbase w node w₁ hnode hw
  obtain ⟨t, keys, fields, w₂, w₃, -, hkeys, hfields, hfinish⟩ := list_run hleft hlist
  obtain ⟨hgrows, -⟩ := orderKeys_eq_ok hkeys
  obtain ⟨slots, hwidens, -, -⟩ := fieldEntries_lists catalog entries w₂ fields w₃ hfields
  obtain ⟨⟨captured, w₄, hleave, hleaves⟩, hover⟩ :=
    finishFields_leaves (hgrows.toWidens.trans hwidens) hfinish
  have hw₀ := hdraws.isSeeded hw
  have hopened : Workspace.IsSeeded { w₀.opened t .enabled with
      frames := ⟨node.dataType, allBut⟩ :: w₀.frames } :=
    ⟨hw₀.scopes.enter_ofType t, hw₀.locals⟩
  have horder := orderKeys_draws hkeys
  have hsegments := horder.append (hentries w₂ fields w₃ hfields (horder.isSeeded hopened))
  rw [Expr.isFields, Bool.and_true]
  exact ⟨w₄, hdraws.trans (list_draws hsegments hleave hover), hleaves⟩

/-- Reads are followed through every expression. -/
def captureDiscipline (catalog : Catalog) : Discipline catalog where
  Makes := Relates Follows
  Builds := BuildsFollow catalog
  Binds := BindsFollow catalog
  Lists := RelatesFields catalog FollowsFields
  pure := fun h w a w' ha _ => by
    obtain ⟨rfl, rfl⟩ := pure_eq_ok.mp ha
    exact .wrap w h
  throw := Relates.throw
  bind := Relates.bind fun h h' hw => (h hw).trans (h' ((h hw).isSeeded hw))
  frame := fun others h w a w' ha hw => (h w a w' ha hw).frame others
  located := fun _ => Relates.located
  uncallable := fun _ => Relates.uncallable
  builtin := builtin_follows
  function := function_follows
  fold := fold_follows
  name := useName_follows catalog
  currentRow := currentRow_follows
  restrict := restrict_follows
  binds_nil := fun w u w' s scope h hscopes _ hblock hw => by
    cases h
    exact ⟨s, scope, [], hscopes, hblock, .refl s, (List.append_nil _).symm, hw⟩
  binds_cons := bindsFollow_cons
  block := block_follows
  lists_nil := .nil fun w _ => .nil w
  lists_plain := .plain
  lists_computed := fun h hrest => hrest.computed fun hsegment hothers hw => by
    have hdraws := computedField_draws h hw hsegment
    exact hdraws.append (hothers (hdraws.isSeeded hw))
  closed := fun {keepOpen e} hfields h w n w' hn hw => by
    rw [hfields, Bool.and_false]
    exact ⟨w', h w n w' hn hw, rfl⟩
  makes := fun h w n w' hn hw => by
    obtain ⟨w₁, hdraws, rfl⟩ := h w n w' hn hw
    exact hdraws
  fields := fields_follow

-- ================================================== whole statements

variable {s : Statement}

/-- All headers in the statement are faithful. -/
theorem statement_faithful {sentence : Sentence} (hw : w.IsSeeded)
    (h : statement catalog sentence w = .ok s w') :
    ∀ segment ∈ s.segments, segment.IsFaithful := by
  -- what is known of any expression that is built
  have hbuilt {e : Expr} {node : Node} {w w₁ : Workspace} (hw : w.IsSeeded)
      (hnode : expression catalog false e w = .ok node w₁) : node.Everywhere Node.IsFaithful := by
    have hdraws := (captureDiscipline catalog).expression e w node w₁ hnode hw
    exact Node.allHave_singleton.mp (hdraws.faithful Node.allHave_nil)
  rcases statement_cases h with ⟨e, node, hnode, rfl⟩ | ⟨e, node, name, w₁, hnode, hs⟩ |
    ⟨e, mark, name, params, returns, hs⟩ | ⟨user, rfl, rfl⟩
  · refine Statement.forall_segments ?_ fun _ _ _ hs => nomatch hs
    rintro root ⟨⟩
    exact hbuilt hw hnode
  · obtain ⟨-, rfl⟩ := assign_looks catalog name node w₁ s w' hs
    refine Statement.forall_segments ?_ fun _ _ _ hs => nomatch hs
    rintro root ⟨⟩
    exact hbuilt hw hnode
  -- the body of a function is built in the scope of its parameters
  · obtain ⟨body, w₂, captured, link, hbody, hleave, -, -, rfl⟩ := definition_steps hs
    have hadmits := Scopes.admits_seeded w.context.scopes .parameters params .parameter
    have hw₁ : IsSeeded (w.entered _ .enabled) :=
      ⟨hw.scopes.enter hadmits (Scope.isSeeded_seeded _ _ _ _), hw.locals⟩
    have hdraws := (captureDiscipline catalog).expression e _ body w₂ hbody hw₁
    obtain ⟨-, -, hsegment⟩ := level_draws (w := w) rfl hadmits rfl hdraws hleave
    refine Statement.forall_segments ?_ ?_
    · rintro root ⟨⟩
      exact hbuilt hw₁ hbody
    · rintro _ _ _ ⟨⟩
      exact hsegment _ _ _
  · exact fun _ hsegment => absurd hsegment List.not_mem_nil

/-- Columns of the same name are taken for one only where a copied value
loads one of them. What the code of a segment loads by name is in its
header by that name; the type is another one only if the body loads that
column, too, and copies a value that loads a column of this name. And
where the types in the header are all right, the code loads no two
columns of the same name. -/
theorem statement_merges_columns_only_in_copies {c : Context} (hc : c.scopes.IsSeeded)
    {sentence : Sentence} (h : statement catalog sentence { context := c } = .ok s w') :
    ∀ segment ∈ s.segments,
      (∀ v ∈ segment.body.ownLoads, ∃ d ∈ segment.lookup, d.name = v.name ∧
        (d = v ∨ Node.Loads [segment.body] d ∧ Node.Copies [segment.body] v.name)) ∧
      ((∀ v ∈ segment.body.ownLoads, v ∈ segment.lookup) →
        ∀ v ∈ segment.body.ownLoads, ∀ v' ∈ segment.body.ownLoads, v'.name = v.name → v' = v) := by
  intro segment hsegment
  have hnone : ∀ l ∈ ({ context := c } : Workspace).locals, False :=
    fun _ hl => absurd hl List.not_mem_nil
  have hfaithful := statement_faithful ⟨hc, fun l hl => (hnone l hl).elim⟩ h segment hsegment
  have hcomplete := statement_complete ⟨hc.toIsSound, fun l hl => (hnone l hl).elim⟩ h segment
    hsegment
  constructor
  · intro v hv
    have hname := (hcomplete _ (Node.mem_rowReads_of_ownLoads hv)).resolve_right List.not_mem_nil
    obtain ⟨d, hd, hsame⟩ := List.mem_map.mp hname
    exact ⟨d, hd, hsame, hfaithful.types v hv d hd hsame⟩
  · intro hlisted v hv v' hv' hname
    exact List.inj_on_of_nodup_map hfaithful.nodup (hlisted v' hv') (hlisted v hv) hname

/-- A column bound in a block, and a predicate over rows with another
column of that name. -/
def capturedColumn : Sentence :=
  .expression (.fields 21 (.emptyTable 0 [("a", .named "number" 8)]) ⟨false, [],
    [.computed "x" 23 (.block 28 [⟨"y", .name 37 "a"⟩]
      (.restrict 56 (.emptyTable 40 [("a", .named "text" 48)])
        (.chain 62 (.name 62 "y") [⟨"=", 64, .name 66 "y"⟩, ⟨"and", 68, .name 72 "a"⟩,
          ⟨"=", 74, .text 76 "b"⟩])))]⟩)

/-- A type that is number. -/
def isNumber : DataType → Bool
  | .number => true
  | _ => false

/-- The predicate loads both columns, and its header has one of them. -/
theorem statement_merges_columns_only_in_copies_captured_column :
    ∃ s w', statement {} capturedColumn { context := .fresh } = .ok s w' ∧
      ∃ segment ∈ s.segments, segment.name = "where" ∧ Node.Copies [segment.body] "a" ∧
        ¬ ∀ v ∈ segment.body.ownLoads, v ∈ segment.lookup := by
  have hrun : endsWith (fun s _ => s.segments.any fun segment => segment.name == "where" &&
      (segment.lookup.all fun d => isNumber d.type) &&
      (segment.body.ownLoads.any fun v => v.name == "a" && isNumber v.type) &&
      segment.body.ownLoads.any fun v => v.name == "a" && !isNumber v.type)
      (statement {} capturedColumn { context := .fresh }) = true := by decide +kernel
  obtain ⟨s, w', hr, hcheck⟩ := endsWith_eq_true hrun
  obtain ⟨segment, hsegment, hcheck⟩ := List.any_eq_true.mp hcheck
  obtain ⟨hcheck, htext⟩ := Bool.and_eq_true_iff.mp hcheck
  obtain ⟨hcheck, hnumber⟩ := Bool.and_eq_true_iff.mp hcheck
  obtain ⟨hname, hlookup⟩ := Bool.and_eq_true_iff.mp hcheck
  obtain ⟨v, hv, hvtext⟩ := List.any_eq_true.mp htext
  obtain ⟨u, hu, hunumber⟩ := List.any_eq_true.mp hnumber
  obtain ⟨hva, hvtext⟩ := Bool.and_eq_true_iff.mp hvtext
  obtain ⟨hua, hunumber⟩ := Bool.and_eq_true_iff.mp hunumber
  obtain ⟨hheader, hagree⟩ :=
    statement_merges_columns_only_in_copies .fresh hr segment hsegment
  refine ⟨s, w', hr, segment, hsegment, beq_iff_eq.mp hname, ?_, fun hall => ?_⟩
  · obtain ⟨d, hd, -, rfl | ⟨-, hcopies⟩⟩ := hheader v hv
    · rw [List.all_eq_true.mp hlookup d hd] at hvtext
      cases hvtext
    · rwa [beq_iff_eq.mp hva] at hcopies
  · have hsame := hagree hall u hu v hv ((beq_iff_eq.mp hva).trans (beq_iff_eq.mp hua).symm)
    rw [hsame, hunumber] at hvtext
    cases hvtext

end Build

end RelQuery
