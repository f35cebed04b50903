/-
What segments see of the rows and the names around them.

The current row is found in the nearest scope with a heading, and its
columns are read one by one, by name, through all open scopes. So a
column is not read if a block in between has bound its name. A key of an
ordering is found by name, too: in the scope of its list, which offers
the columns of the base, and else further out; the scope of a list that
continues an ordering offers no columns at all.

What is read off the tree afterwards agrees with this, since the scopes
reflect the surroundings wherever the tree is built. `Accounts` is what
a step owes for the trees it makes: columns that they show have been
read, and what they hold heeds its surroundings. It needs to be known
along with it what the scopes have recorded and why (`Draws`), for the
header of a segment is filled from all reads alike.
-/
import RelQuery.Proofs.Build.Reflection

namespace RelQuery

open Workspace
open Node (Wrap EverywhereIn Heeds)

-- ========================================================= segments

/-- The segment lists what its body shows, and the body heeds where it
stands. -/
structure Segment.Minds (Γ : Surroundings) (s : Segment) : Prop where
  lists : s.Lists Γ
  body : s.body.EverywhereIn Heeds Γ

/-- A node over a base heeds its surroundings if its segments mind the
rows of the base. -/
theorem Node.heeds_over {Γ : Surroundings} {n base : Node} (hoperands : n.operands = [base])
    (hground : ∀ s ∈ n.segments, n.ground?.isSome = true) (hbound : n.bound = [])
    (hinside : n.inside Γ = Γ) (hminds : ∀ s ∈ n.segments, s.Minds (Γ.row base.heading))
    (hkeys : ∀ k ∈ n.keys, k.IsKeyOver Γ base) (hbase : base.EverywhereIn Heeds Γ) :
    n.EverywhereIn Heeds Γ := by
  have hown : ∀ other ∈ n.ground?, other = base := by
    intro other hother
    rw [Node.operands_of_ground? hother] at hoperands
    exact List.singleton_inj.mp hoperands
  have hrow : ∀ s ∈ n.segments, s.Minds (n.rowAround Γ) := by
    intro s hs
    obtain ⟨other, hother⟩ := Option.isSome_iff_exists.mp (hground s hs)
    unfold Node.rowAround
    rw [hother, hown other hother]
    exact hminds s hs
  rw [Node.everywhereIn_iff, hoperands, Node.boundIn_eq_nil hbound, hinside]
  refine ⟨⟨fun s hs => (hrow s hs).lists, fun other hother => ?_⟩,
    List.forall_mem_singleton.mpr hbase, fun _ h => absurd h List.not_mem_nil,
    fun s hs => (hrow s hs).body⟩
  rw [hown other hother]
  exact hkeys

-- ========================================================= accounts

/-- The columns that the trees show are those that the given ones show,
or they have been read, and their names lead to them or are loaded in a
copied value; and the trees heed their surroundings if the given ones
do. -/
structure Accounts (Γ : Surroundings) (w : Workspace) (given : List Node) (w' : Workspace)
    (made : List Node) : Prop where
  rows : ∀ n ∈ made, ∀ c, n.Shows Γ c → (∃ m ∈ given, m.Shows Γ c) ∨ w'.Knows c.name ∧
    ((∃ level, w.context.scopes.FindsAt c level) ∨ Node.Copies made c.name)
  heeds : (∀ n ∈ given, n.EverywhereIn Heeds Γ) → ∀ n ∈ made, n.EverywhereIn Heeds Γ

/-- In a workspace that is seeded and reflects the surroundings. -/
def Minds (w : Workspace) (given : List Node) (w' : Workspace) (made : List Node) : Prop :=
  w.IsSeeded → Draws w given w' made ∧ ∀ Γ, w.Reflects Γ → Accounts Γ w given w' made

namespace Draws

variable {w w' : Workspace} {given made : List Node} {Γ : Surroundings} {name : String}

theorem knows (h : Draws w given w' made) (hname : w.Knows name) : w'.Knows name :=
  hname.mono h.scopes.widens.1 h.scopes.widens.2

theorem reflects (h : Draws w given w' made) (hΓ : w.Reflects Γ) : w'.Reflects Γ :=
  hΓ.widens h.locals h.scopes.widens.1

end Draws

namespace Accounts

variable {Γ : Surroundings} {w w' w'' : Workspace} {given made more : List Node}

theorem wrap (w : Workspace) (h : Wrap given made) : Accounts Γ w given w made where
  rows := fun _ hn _ hshows => .inl (h.shows hn hshows)
  heeds := h.heeds

/-- What either step reads is accounted for in the end, since the second
one draws on the trees of the first. -/
theorem trans (hdraws : Draws w given w' made) (hdraws' : Draws w' made w'' more)
    (h : Accounts Γ w given w' made) (h' : Accounts Γ w' made w'' more) :
    Accounts Γ w given w'' more where
  rows := by
    intro n hn c hshows
    rcases h'.rows n hn c hshows with ⟨m, hm, hshows⟩ | ⟨hknows, hfound⟩
    · refine (h.rows m hm c hshows).imp_right fun ⟨hknows, hfound⟩ => ?_
      exact ⟨hdraws'.knows hknows, hfound.imp_right hdraws'.within.copies⟩
    · refine .inr ⟨hknows, hfound.imp_left fun ⟨level, hfinds⟩ => ?_⟩
      exact ⟨level, hdraws.scopes.findsAt.mp hfinds⟩
  heeds := fun hg => h'.heeds (h.heeds hg)

/-- Trees that are not looked at are accounted for. -/
theorem frame (others : List Node) (h : Accounts Γ w given w' made) :
    Accounts Γ w (others ++ given) w' (others ++ made) where
  rows := by
    intro n hn c hshows
    rcases List.mem_append.mp hn with hn | hn
    · exact .inl ⟨n, List.mem_append_left _ hn, hshows⟩
    · rcases h.rows n hn c hshows with ⟨m, hm, hshows⟩ | ⟨hknows, hfound⟩
      · exact .inl ⟨m, List.mem_append_right _ hm, hshows⟩
      · refine .inr ⟨hknows, hfound.imp_right fun hcopies => ?_⟩
        have hwithin : Node.Within made (others ++ made) :=
          fun m _ hm => Node.below_append.mpr (.inr hm)
        exact hwithin.copies hcopies
  heeds := by
    intro hg
    obtain ⟨hothers, hgiven⟩ := List.forall_mem_append.mp hg
    exact List.forall_mem_append.mpr ⟨hothers, h.heeds hgiven⟩

/-- A node that shows what its operands show. -/
theorem node {n : Node} (hrow : ∀ type, n ≠ .currentRow type) (hinside : n.inside Γ = Γ)
    (hheeds : (∀ k ∈ n.operands, k.EverywhereIn Heeds Γ) → n.EverywhereIn Heeds Γ) :
    Accounts Γ w n.operands w' [n] where
  rows := by
    rw [List.forall_mem_singleton]
    intro c hshows
    rw [Node.shows_iff_operands hrow, hinside] at hshows
    exact .inl hshows
  heeds := fun hg => List.forall_mem_singleton.mpr (hheeds hg)

/-- A node that binds nothing and holds no segment. -/
theorem plain {n : Node} (hrow : ∀ type, n ≠ .currentRow type) (hinside : n.inside Γ = Γ)
    (hbound : n.bound = []) (hsegments : n.segments = []) : Accounts Γ w n.operands w' [n] :=
  .node hrow hinside (Node.everywhereIn_of_operands hbound hsegments hinside
    (Node.heeds_of_segments hsegments))

end Accounts

theorem Relates.follows {α : Type} {given : List Node} {step : Build α} {made : α → List Node}
    (h : Relates Minds given step made) : Relates Follows given step made :=
  fun w a w' ha hw => (h w a w' ha hw).1

namespace Build

variable {catalog : Catalog} {w w' w₁ w₂ : Workspace} {Γ : Surroundings}

-- ============================================================= calls

/-- A step that changes counters only, and a node from what it gives. -/
theorem yields_minds {step : Build Node} {f : α → Node} {given : List Node}
    (h : Relates Follows given step fun n => [n]) (hyields : Yields step f)
    (hoperands : ∀ a, (f a).operands = given) (hrow : ∀ a type, f a ≠ .currentRow type)
    (hinside : ∀ a Γ, (f a).inside Γ = Γ) (hbound : ∀ a, (f a).bound = [])
    (hsegments : ∀ a, (f a).segments = []) : Relates Minds given step fun n => [n] := by
  intro w n w' hn hw
  refine ⟨h w n w' hn hw, fun Γ _ => ?_⟩
  obtain ⟨-, a, rfl⟩ := hyields w n w' hn
  rw [← hoperands a]
  exact .plain (hrow a) (hinside a Γ) (hbound a) (hsegments a)

/-- A builtin reads what its operands read. -/
theorem builtin_minds (link : Signature) (args : List Node) (type : DataType) :
    Relates Minds args (noteWindow link >>= fun _ => allocateFor link >>= fun slot =>
      pure (.call link args type slot)) fun n => [n] :=
  yields_minds (f := fun slot => .call link args type slot) (builtin_follows link args type)
    (.bind (noteWindow_tallies link) fun _ => .bind (allocateFor_tallies link) .pure)
    (fun _ => rfl) (fun _ _ h => nomatch h) (fun _ _ => rfl) (fun _ => rfl) fun _ => rfl

/-- A function reads what its operands read. -/
theorem function_minds (link : Signature) (args : List Node) (type : DataType) :
    Relates Minds args (allocateFor link >>= fun slot => pure (.function link args type slot))
      fun n => [n] :=
  yields_minds (f := fun slot => .function link args type slot) (function_follows link args type)
    (.bind (allocateFor_tallies link) .pure)
    (fun _ => rfl) (fun _ _ h => nomatch h) (fun _ _ => rfl) (fun _ => rfl) fun _ => rfl

/-- A fold reads what its operand reads. -/
theorem fold_minds (op : String) (arg : Node) (type : DataType) :
    Relates Minds [arg] (allocate "fold" 1 >>= fun slot => pure (.fold op slot arg type))
      fun n => [n] :=
  yields_minds (f := fun slot => .fold op slot arg type) (fold_follows op arg type)
    (.bind (allocate_tallies _ _) .pure)
    (fun _ => rfl) (fun _ _ h => nomatch h) (fun _ _ => rfl) (fun _ => rfl) fun _ => rfl

-- ============================================================= names

/-- A use of a block binding shows what the value does where it was
bound, and that is read again. -/
theorem useLocal_accounts {name : String} {slot : Nat} {n : Node} {l : LocalSlot} (hw : w.IsSeeded)
    (hslot : w.locals[slot]? = some l)
    (hl : l.IsSoundAt w.context.scopes (Γ.valueAround name))
    (h : useLocal name slot w = .ok n w') : Accounts Γ w [] w' [n] := by
  rw [useLocal, get_bind_apply, hslot] at h
  obtain ⟨u, w₁, hscopes, h⟩ := bind_eq_ok.mp h
  obtain ⟨copy, w₂, hcopy, h⟩ := bind_eq_ok.mp h
  cases h
  cases hscopes
  -- what is used is a copy of the value, and a copy shows and loads the same
  obtain ⟨⟨counters, rfl⟩, hcopied, hloads, -⟩ := relocate_related (R := fun m m' =>
    Node.Copied m m' ∧ (∀ column, Node.Loads [m] column → Node.Loads [m'] column) ∧
      (m.Everywhere Node.IsFaithful → m'.Everywhere Node.IsFaithful))
    (fun _ _ hbare hoperands => ⟨Node.copied_of_operands hbare (hoperands.imp fun _ _ h => h.1),
      Node.copy_faithful hbare (hoperands.imp fun _ _ h => h.2)⟩) hcopy
  obtain ⟨-, hread⟩ := hw.locals l (List.mem_of_getElem? hslot)
  constructor
  -- a column that the copy shows was read by the value, and is read again
  · rw [List.forall_mem_singleton]
    intro c hshows
    have hrow : ∀ type, Node.inlined name copy ≠ .currentRow type := by
      rintro type ⟨⟩
    rw [Node.shows_iff_operands hrow] at hshows
    obtain ⟨m, hm, hshows⟩ := hshows
    obtain rfl := List.mem_singleton.mp hm
    obtain ⟨r, hr, hname, hoffers⟩ := hl.reads c (hcopied.shown _ c hshows)
    rw [← hname] at hoffers ⊢
    exact .inr ⟨Scopes.notes_foldl_record hr hoffers,
      .inr (Node.copies_inlined (hloads r.column (hread r hr)))⟩
  -- the copy heeds what the value did where it was bound
  · rintro -
    rw [List.forall_mem_singleton, Node.everywhereIn_iff]
    exact ⟨Node.heeds_of_segments rfl, List.forall_mem_singleton.mpr (hcopied.heeds _ hl.heeds),
      fun _ h => absurd h List.not_mem_nil, fun _ h => absurd h List.not_mem_nil⟩

/-- What the catalog holds is loaded from there. -/
theorem useGlobal_looks (catalog : Catalog) (name : String) :
    Looks (useGlobal catalog name) fun n => ∃ source type, n = .variable name source type := by
  unfold useGlobal
  split
  · split
    · exact .pure ⟨_, _, rfl⟩
    · exact .pure ⟨_, _, rfl⟩
    · exact .fail _
  · split
    · exact .fail _
    · exact .fail _

/-- A name is found where its place is, or in the catalog. -/
theorem useName_minds (catalog : Catalog) (name : String) :
    Relates Minds [] (useName catalog name) fun n => [n] := by
  intro w n w' h hw
  refine ⟨useName_follows catalog name w n w' h hw, fun Γ hΓ => ?_⟩
  have hvariable {name : String} {source : VariableSource} {type : DataType} :
      Accounts Γ w [] w' [.variable name source type] :=
    .plain (n := .variable name source type) (fun _ h => nomatch h) rfl rfl rfl
  -- the name is looked for in the scopes first, then in the catalog
  obtain ⟨found, w₁, hresolve, h⟩ := bind_eq_ok.mp h
  obtain ⟨rfl, rfl⟩ := resolve_reads hresolve
  cases hfind : w.context.scopes.find? name with
  | none =>
      rw [hfind] at h
      obtain ⟨-, source, type, rfl⟩ := useGlobal_looks catalog name _ n w' h
      exact hvariable
  | some symbol =>
      rw [hfind] at h
      dsimp only [useSymbol] at h
      generalize hkind : symbol.kind = kind at h
      -- what a symbol stands for decides what is loaded
      cases kind with
      | field | parameter | component | catalog =>
          cases h
          exact hvariable
      -- a bound name reads nothing by itself: its value was built before
      | bound slot =>
          obtain rfl := Scopes.find?_name hfind
          have hquiet : w.context.scopes.readOf symbol.name = [] := by
            rw [Scopes.readOf, hfind]
            dsimp only
            rw [hkind]
            rfl
          rw [hquiet] at h
          obtain ⟨l, hslot, hl⟩ := hΓ.bound_of_find? hfind hkind
          exact useLocal_accounts hw hslot hl h
      | operator | deferred | userType => exact absurd h fail_ne_ok

/-- The current row reads the columns that no block hides. -/
theorem currentRow_minds : Relates Minds [] currentRow fun n => [n] := by
  intro w n w' h hw
  refine ⟨currentRow_follows w n w' h hw, fun Γ hΓ => ?_⟩
  obtain ⟨heading, hheading, rfl, rfl⟩ := currentRow_eq_ok h
  constructor
  · rw [List.forall_mem_singleton]
    -- the row shows a column that is seen by its name, and that name has been
    -- resolved
    intro c hshows
    rcases Node.shows_iff.mp hshows with ⟨row, hrow, hc, hseen⟩ | ⟨k, hk, -⟩
    · obtain rfl := DataType.tuple.inj (Node.currentRow.inj hrow)
      obtain ⟨level, hfinds⟩ :=
        hΓ.findsAt (Γ.sense?_of_row? (hΓ.row.symm.trans hheading) hc hseen)
      refine .inr ⟨?_, .inl ⟨level, hfinds⟩⟩
      obtain ⟨symbol, hfind, hlookup, -, -⟩ := hfinds
      obtain ⟨hname, hoffers⟩ := hw.scopes.toIsSound.find? hfind hlookup
      have hread : ⟨⟨symbol.name, symbol.type⟩, symbol.level⟩ ∈
          heading.names.flatMap w.context.scopes.readOf := by
        refine List.mem_flatMap.mpr ⟨c.name, ?_, ?_⟩
        · exact List.mem_map_of_mem (List.mem_of_find?_eq_some hc)
        · rw [Scopes.readOf, hfind]
          dsimp only
          rw [if_pos hlookup]
          exact List.mem_cons_self
      rw [← hname] at hoffers ⊢
      exact Scopes.notes_foldl_record hread hoffers
    · exact absurd hk List.not_mem_nil
  -- the row has no segments
  · rintro -
    exact List.forall_mem_singleton.mpr (Node.everywhereIn_of_operands rfl rfl rfl
      (Node.heeds_of_segments rfl) fun _ h => absurd h List.not_mem_nil)

-- ============================================================ levels

/-- The segment of a level minds where its body stands. -/
theorem level_minds {scope : Scope} {body : Node} {captured : Captured}
    (hopen : w₁.context.scopes = w.context.scopes.enter scope)
    (hadmits : w.context.scopes.Admits scope) (hlookup : scope.lookup = [])
    (hheading : scope.heading.isSome = true) (hw : w₁.IsSeeded) (h : Draws w₁ [] w₂ [body])
    (ha : Accounts Γ w₁ [] w₂ [body]) (hleave : leave w₂ = .ok captured w') (label : String)
    (accums : Nat) (window : Bool) :
    (Segment.make label body captured.scope.lookup accums window).Minds Γ := by
  -- what the body reads is in the lookup of its level, each column from some
  -- source
  have hheeds := ha.heeds (fun _ h => absurd h List.not_mem_nil) body List.mem_cons_self
  have hsources := level_sources hopen hadmits hlookup h hleave
  have hscopes := h.scopes
  rw [hopen] at hscopes
  obtain ⟨reads, t, hinner, -, -⟩ := hscopes.of_enter hadmits
  obtain ⟨-, hcaptured, -⟩ := leave_enter hinner hleave
  have hcurrent : w₂.context.scopes.current.heading.isSome = true := by
    rw [hinner]
    show (scope.recordAll reads).heading.isSome = true
    rw [(scope.recordAll_widens reads).heading]
    exact hheading
  -- and what the body shows was noted there under its name
  refine ⟨⟨fun c hc => ?_, Segment.lookup_of_closed⟩, hheeds⟩
  rcases ha.rows body List.mem_cons_self c hc with ⟨m, hm, -⟩ | ⟨hknows, hfound⟩
  · exact absurd hm List.not_mem_nil
  · have hmem := Scopes.Notes.mem_lookup hknows (h.isSeeded hw).scopes.toIsSound hcurrent
    rw [hinner] at hmem
    obtain ⟨d, hd, hname⟩ := List.mem_map.mp hmem
    have hd' : d ∈ captured.scope.lookup := by rwa [hcaptured]
    obtain ⟨hloads, hsource⟩ := hsources d hd'
    refine ⟨d, hd', hname, ?_⟩
    -- a column found at once is the same one; otherwise the body holds a copy that
    -- loads it
    rcases hsource with ⟨level, hfinds⟩ | hcopies
    · rcases hfound with ⟨level', hfinds'⟩ | hcopies
      · exact .inl (hfinds.unique hfinds' hname)
      · exact .inr ⟨hloads, hcopies⟩
    · rw [hname] at hcopies
      exact .inr ⟨hloads, hcopies⟩

/-- A predicate stands in the row of its base. -/
theorem restrict_minds (base : Node) (predicate : Expr)
    (h : Relates Minds [] (expression catalog false predicate) fun n => [n]) :
    Relates Minds [base] (enterRestrict base >>= fun _ => expression catalog false predicate >>=
      fun p => restrict base p) fun n => [n] := by
  intro w n w' hn hw
  refine ⟨restrict_follows base predicate h.follows w n w' hn hw, fun Γ hΓ => ?_⟩
  obtain ⟨p, w₂, captured, hrelation, hp, hleave, rfl⟩ := restriction_steps hn
  obtain ⟨heading, hheading⟩ :=
    Option.isSome_iff_exists.mp (isSome_heading_of_isRelation hrelation)
  have hw₁ := IsSeeded.opened hw (some base.dataType) .disabled
  obtain ⟨hdraws, haccounts⟩ := h _ p w₂ hp hw₁
  have haccounts := haccounts _ (hΓ.opened hheading .disabled)
  have hminds := level_minds (w := w) rfl (Scopes.admits_ofType _ _) (lookup_ofType _ _)
    (by rw [Scope.heading_ofType, hheading]; rfl) hw₁ hdraws haccounts hleave "where"
    (captured.counter.getD {}).total (captured.counter.getD {}).hasWindow
  rw [← base.heading_eq hheading] at hminds
  refine .node (n := .restrict base _) (fun _ h => nomatch h) rfl fun hbase => ?_
  exact Node.heeds_over rfl (fun _ _ => rfl) rfl rfl (List.forall_mem_singleton.mpr hminds)
    (fun _ hk => absurd hk List.not_mem_nil) (hbase base List.mem_cons_self)

-- ============================================================ blocks

/-- The names of bound values and the values, as a block keeps them. -/
def boundNodes (locals : List LocalSlot) : List BoundNode :=
  locals.map fun l => ⟨l.name, l.value⟩

/-- Inside a block, the scopes reflect the surroundings with the names
bound, and the values heed those that they were bound in. -/
structure Binding.Accounts (Γ : Surroundings) (w' : Workspace) (more : List LocalSlot) : Prop where
  reflects : w'.Reflects (Γ.bindAll (more.map (·.name)))
  heeds : ∀ p ∈ Γ.values (boundNodes more), p.2.EverywhereIn Heeds p.1

/-- The bindings of a block account for what they bind. -/
def BindsMind (catalog : Catalog) (bindings : List Binding) : Prop :=
  ∀ w u w' s scope, blockBindings catalog bindings w = .ok u w' →
    w.context.scopes = s.enter scope → s.IsSeeded → IsBlock s scope → w.IsSeeded →
    ∃ t scope' more, Binding.Draws s w w' t scope' more ∧
      ∀ Γ, w.Reflects Γ → Binding.Accounts Γ w' more

/-- One binding: the value is kept with a read for each column that it
shows. -/
theorem bindLocal_accounts {name : String} {value : Expr} {mark : Nat} {u : Unit}
    (h : Relates Minds [] (expression catalog false value) fun n => [n]) (hw : w.IsSeeded)
    (hΓ : w.Reflects Γ) (hu : (beginLocal >>= fun _ => expression catalog false value >>= fun n =>
      located mark (bindLocal name n)) w = .ok u w') :
    ∃ l : LocalSlot, l.name = name ∧ w'.locals = w.locals ++ [l] ∧ w'.Reflects (Γ.bound name) ∧
      l.value.EverywhereIn Heeds Γ := by
  -- the value is built where the block stands, with a tracker for its reads
  obtain ⟨n, w₂, hn, hbind⟩ := binding_steps hu
  have hw₁ : IsSeeded w.binding :=
    ⟨⟨⟨hw.scopes.levels, hw.scopes.symbols⟩, hw.scopes.seeded⟩, hw.locals⟩
  have hΓ₁ : w.binding.Reflects Γ :=
    hΓ.of_levels rfl (fun scope hmem => ⟨scope, hmem, rfl, List.Subset.refl _⟩) rfl fun _ => rfl
  obtain ⟨hdraws, haccounts⟩ := h _ n w₂ hn hw₁
  have haccounts := haccounts Γ hΓ₁
  -- then its name is added to the block
  obtain ⟨slots, w₃, hgrows, -, -, rfl⟩ := expression_builds catalog false value _ n w₂ hn
  obtain ⟨seen, trackers, htrackers⟩ := List.exists_cons_of_length_eq_add_one hgrows.scopes.trackers
  obtain ⟨symbol, rfl, hkind, -, hlevel, hnew, rfl⟩ :=
    bindLocal_adds hgrows.pending htrackers hbind
  have hheeds := haccounts.heeds (fun _ h => absurd h List.not_mem_nil) n List.mem_cons_self
  have hlocals : w₂.locals = w.locals := hdraws.locals
  refine ⟨⟨symbol.name, n, _⟩, rfl, congrArg (· ++ _) hlocals, ?_, hheeds⟩
  refine (hdraws.reflects hΓ₁).bind hkind hnew ⟨hheeds, fun c hshows => ?_⟩
  -- a column that the value shows was noted, and so the tracker has it
  rcases haccounts.rows n List.mem_cons_self c hshows with ⟨m, hm, -⟩ | ⟨hknows, -⟩
  · exact absurd hm List.not_mem_nil
  · exact tracked_of_knows (hdraws.isSeeded hw₁).scopes.toIsSound htrackers hknows

/-- A binding stands where its block does. -/
theorem bindsMind_cons {name : String} {value : Expr} {rest : List Binding}
    (h : Relates Minds [] (expression catalog false value) fun n => [n])
    (hrest : BindsMind catalog rest) : BindsMind catalog (⟨name, value⟩ :: rest) := by
  intro w u w' s scope hu hscopes hs hblock hw
  obtain ⟨u₂, w₃, hrun, hu⟩ := blockBindings_steps hu
  obtain ⟨t, scope₁, l, hfirst⟩ := bindLocal_draws h.follows hscopes hs hblock hw hrun
  obtain ⟨t', scope₂, more, hmore, haccounts⟩ := hrest w₃ u w' t scope₁ hu hfirst.inside
    (hfirst.scopes.isSeeded hs) hfirst.isBlock hfirst.seeded
  refine ⟨t', scope₂, l :: more, hfirst.append hmore, fun Γ hΓ => ?_⟩
  obtain ⟨l', rfl, hlocals, hΓ₃, hheeds⟩ := bindLocal_accounts h hw hΓ hrun
  rw [hfirst.locals] at hlocals
  obtain rfl := List.singleton_inj.mp (List.append_cancel_left hlocals)
  obtain ⟨hreflects, hvalues⟩ := haccounts _ hΓ₃
  exact ⟨hreflects, List.forall_mem_cons.mpr ⟨hheeds, hvalues⟩⟩

/-- Bindings that mind their places follow their reads. -/
theorem BindsMind.follows {bindings : List Binding} (h : BindsMind catalog bindings) :
    BindsFollow catalog bindings := by
  intro w u w' s scope hu hscopes hs hblock hw
  obtain ⟨t, scope', more, hdraws, -⟩ := h w u w' s scope hu hscopes hs hblock hw
  exact ⟨t, scope', more, hdraws⟩

/-- A block shows what its body shows where the names are bound. -/
theorem block_minds {bindings : List Binding} {body : Expr}
    (hbindings : BindsMind catalog bindings)
    (h : Relates Minds [] (expression catalog false body) fun n => [n]) :
    Relates Minds [] (enterBlock >>= fun first => blockBindings catalog bindings >>= fun _ =>
      expression catalog false body >>= fun n => block first n) fun n => [n] := by
  intro w n w' hn hw
  -- what the block loads is settled; this adds what it shows and what its
  -- segments heed
  refine ⟨block_follows hbindings.follows h.follows w n w' hn hw, fun Γ hΓ => ?_⟩
  obtain ⟨u, w₂, value, w₃, captured, w₄, hbind, hvalue, hleave, rfl, rfl⟩ := block_steps hn
  -- the bindings leave a scope of their own, in which the body is built
  obtain ⟨t, scope, more, hbound, hmore⟩ := hbindings _ u w₂ w.context.scopes _ hbind rfl hw.scopes
    (.opened _) (IsSeeded.opened hw none .inherit)
  obtain ⟨hreflects, hvalues⟩ := hmore Γ (hΓ.block .inherit)
  obtain ⟨hdraws, hbody⟩ := h w₂ value w₃ hvalue hbound.seeded
  have hbody := hbody _ hreflects
  have hscopes := hdraws.scopes
  rw [hbound.inside] at hscopes
  obtain ⟨reads, t', hinner, -, -⟩ := hscopes.of_enter hbound.isBlock.admits
  obtain ⟨-, hcaptured, hlocals⟩ := leave_enter hinner hleave
  have hall : w₄.locals = w.locals ++ more := by
    rw [hlocals, hdraws.locals, hbound.locals]
    rfl
  have hinside : (boundNodes more).map (·.name) = more.map (·.name) := List.map_map
  rw [hall, List.drop_left, List.take_left]
  constructor
  -- what the body shows is shown outside, unless one of the names bound hides it
  · rw [List.forall_mem_singleton]
    intro c hshows
    have hrow : ∀ type, Node.block (boundNodes more) value ≠ .currentRow type :=
      fun _ h => nomatch h
    obtain ⟨m, hm, hshows⟩ := (Node.shows_iff_operands hrow).mp hshows
    obtain rfl := List.mem_singleton.mp hm
    rw [Node.inside, hinside] at hshows
    rcases hbody.rows m List.mem_cons_self c hshows with ⟨k, hk, -⟩ | ⟨hknows, hfound⟩
    · exact absurd hk List.not_mem_nil
    · refine .inr ⟨((leave_closes hleave).knows hknows).resolve_left ?_, hfound.imp ?_ ?_⟩
      -- a column is never hidden by the block itself, which offers none
      · rintro ⟨symbol, hsymbol, hlookup, -⟩
        rw [hcaptured, (scope.recordAll_widens reads).symbols] at hsymbol
        rw [hbound.isBlock.bound symbol hsymbol] at hlookup
        cases hlookup
      · exact fun ⟨level, hfinds⟩ => ⟨level, hbound.findsAt hfinds⟩
      · exact (Node.Within.operands (.block (boundNodes more) m)).copies
  -- the values were built before their names were bound, the body after
  · rintro -
    rw [List.forall_mem_singleton, Node.everywhereIn_iff]
    refine ⟨Node.heeds_of_segments rfl, ?_, hvalues, fun _ h => absurd h List.not_mem_nil⟩
    show ∀ k ∈ [value], k.EverywhereIn Heeds (Γ.bindAll ((boundNodes more).map (·.name)))
    rw [hinside]
    exact hbody.heeds fun _ h => absurd h List.not_mem_nil

end Build

end RelQuery
