/-
Headers of segments list every read from outside.

A segment is made when its scope closes, and its header is what the
scope has noted. A load in its body was noted by all scopes from the one
that offers the column inwards. If that is the scope of the segment or
one inside it, the column is one that the segment runs over; else the
scope of the segment has noted it, and so have all scopes that are still
open. So trees stay covered by what is known when a scope closes, the
columns of the closed scope aside (`Closes`).

A list of fields has two kinds of scopes: its own, for the keys, and
one for each field. They offer columns of the base only. That holds as
well for a list that continues another one and takes over its scope
(`PassesOn`), which offers the columns of the first list's result or, if
that list only ordered rows, none.
-/
import RelQuery.Proofs.Build.Reading

namespace RelQuery

open Node (AllCovered)

namespace Workspace

variable {w w' w₁ w₂ : Workspace} {scope inner : Scope} {name : String}

-- ================================================ opening and closing

/-- One more scope, and all else as it was. -/
structure Opens (w w' : Workspace) (scope : Scope) : Prop where
  scopes : w'.context.scopes = w.context.scopes.enter scope
  locals : w'.locals = w.locals
  pending : w'.pending = w.pending
  frames : w'.frames = w.frames

/-- The innermost scope is gone, and all else as it was. -/
structure Closes (w w' : Workspace) (scope : Scope) : Prop where
  current : w.context.scopes.current = scope
  outer : w'.context.scopes.all = w.context.scopes.outer
  trackers : w'.context.scopes.trackers = w.context.scopes.trackers
  locals : w'.locals = w.locals
  pending : w'.pending = w.pending
  frames : w'.frames = w.frames

/-- A sound workspace with one more level that may be opened is sound. -/
theorem Opens.isSound (h : w.Opens w' scope) (hw : w.IsSound)
    (hscope : w.context.scopes.Admits scope) : w'.IsSound := by
  refine hw.of_levels ?_ h.locals fun other hmem =>
    ⟨other, ?_, rfl, List.Subset.refl _⟩
  · rw [h.scopes]
    exact hw.scopes.enter hscope
  · rw [h.scopes]
    exact List.mem_cons_of_mem _ hmem

/-- What happens in between is noted by the scopes around. -/
theorem Opens.keeps (h : w.Opens w₁ scope) (hkeeps : w₁.Keeps w₂) (hcloses : w₂.Closes w' inner) :
    w.Keeps w' ∧ scope.Widens inner := by
  have hlevels := hkeeps.scopes.levels
  have hreads := hkeeps.reads
  rw [h.scopes] at hlevels
  unfold Scopes.Tracks at hreads
  rw [h.scopes] at hreads
  cases hlevels with
  | cons hcurrent houter =>
      rw [hcloses.current] at hcurrent
      refine ⟨⟨⟨?_, ?_⟩, ?_, ?_, ?_, ?_⟩, hcurrent⟩
      · rw [hcloses.outer]
        exact houter
      · rw [hcloses.trackers]
        exact hreads.length_eq.symm
      · unfold Scopes.Tracks
        rw [hcloses.trackers]
        exact hreads
      · rw [hcloses.locals, hkeeps.locals, h.locals]
      · rw [hcloses.pending, hkeeps.pending, h.pending]
      · rw [hcloses.frames, hkeeps.frames, h.frames]

/-- An open list is a frame on top of the others. -/
theorem Keeps.dropFrame {f : FieldFrame}
    (h : Keeps { w with frames := f :: w.frames } w') :
    w.Keeps { w' with frames := w'.frames.tail } where
  scopes := h.scopes
  reads := h.reads
  locals := h.locals
  pending := h.pending
  frames := by
    rw [h.frames]
    rfl

/-- A name known inside is offered by the level that closes, or known
outside. -/
theorem Closes.knows (h : w.Closes w' scope) (hname : w.Knows name) :
    scope.Offers name ∨ w'.Knows name := by
  rw [← h.current]
  exact Scopes.Notes.leave hname h.outer h.trackers

/-- What is known is in the header of the scope that closes. -/
theorem Closes.mem_lookup (h : w.Closes w' scope) (hw : w.IsSound)
    (hheading : scope.heading.isSome = true) (hname : w.Knows name) :
    name ∈ scope.lookup.names := by
  obtain rfl := h.current
  exact Scopes.Notes.mem_lookup hname hw.scopes hheading

/-- The segment of the scope that closes has a complete header. -/
theorem Closes.isComplete (h : w.Closes w' scope) (hw : w.IsSound)
    (hheading : scope.heading.isSome = true) {body : Node} (hbody : body.IsCovered w.Knows)
    (label : String) (accums : Nat) (window : Bool) :
    (Segment.make label body scope.lookup accums window).IsComplete := by
  intro r hr
  rcases hbody.reads r hr with haround | hknown
  · exact .inr haround
  · exact .inl (h.mem_lookup hw hheading hknown)

/-- It fits where it runs over the columns of the scope. -/
theorem Closes.fits (h : w.Closes w' scope) (hw : w.IsSound)
    (hheading : scope.heading.isSome = true) {columns : List String}
    (hoffers : ∀ name, scope.Offers name → name ∈ columns) {body : Node}
    (hbody : body.IsCovered w.Knows) (label : String) (accums : Nat) (window : Bool) :
    (Segment.make label body scope.lookup accums window).Fits w'.Knows columns where
  complete := h.isComplete hw hheading hbody label accums window
  body := hbody.mono fun name hknown => (h.knows hknown).imp_left (hoffers name)

end Workspace

/-- A segment fits as well when more is known. -/
theorem Segment.Fits.mono {known known' : String → Prop} {columns : List String} {s : Segment}
    (h : s.Fits known columns) (hknown : ∀ x, known x → x ∈ columns ∨ known' x) :
    s.Fits known' columns :=
  ⟨h.complete, h.body.mono fun x hx => hx.elim .inl (hknown x)⟩

/-- A segment that loads one column has it in its header. -/
theorem Segment.Fits.of_load {known : String → Prop} {columns : List String} {s : Segment}
    {name : String} {type : DataType} (hbody : s.body = .variable name .field type)
    (hlookup : s.lookup = [⟨name, type⟩]) (hname : name ∈ columns ∨ known name) :
    s.Fits known columns where
  complete := by
    unfold Segment.IsComplete
    rw [hbody, hlookup]
    exact List.forall_mem_singleton.mpr (.inl List.mem_cons_self)
  body := by
    rw [hbody]
    exact Node.isCovered_variable fun _ => hname

namespace Build

open Workspace

variable {α β : Type} {w w' w₁ w₂ : Workspace}

/-- Leaving a level closes its scope. -/
theorem leave_closes {captured : Captured} (h : leave w = .ok captured w') :
    w.Closes w' captured.scope := by
  obtain ⟨parent, rest, entry, entries, houter, -, rfl, rfl⟩ := leave_eq_ok h
  exact ⟨rfl, houter.symm, rfl, rfl, rfl, rfl⟩

/-- Emptying a scope is closing it and opening another. -/
theorem reenter_closes {type : DataType} {scope : Scope}
    (h : ofContext (·.reenter type) w = .ok scope w') :
    ∃ w₁, w.Closes w₁ w.context.scopes.current ∧
      w₁.Opens w' (.ofType type (w₁.context.scopes.level + 1)) := by
  obtain ⟨⟨⟨current, outer, trackers⟩, counters⟩, locals, pending, frames⟩ := w
  cases outer with
  | nil => exact absurd h fail_ne_ok
  | cons parent rest =>
      cases h
      exact ⟨⟨⟨⟨parent, rest, trackers⟩, counters⟩, locals, pending, frames⟩,
        ⟨rfl, rfl, rfl, rfl, rfl, rfl⟩, rfl, rfl, rfl, rfl⟩

/-- A level for a type is opened. -/
theorem opened_opens (w : Workspace) (type : Option DataType) (mode : FoldMode) :
    w.Opens (w.opened type mode) (.ofType type (w.context.scopes.level + 1)) :=
  ⟨rfl, rfl, rfl, rfl⟩

-- ===================================================== restrictions

theorem isSome_heading_of_isRelation {type : DataType} (h : type.isRelation = true) :
    type.heading?.isSome = true := by
  cases type <;> first | rfl | cases h

/-- The header of a predicate lists what it reads from outside. -/
theorem restrict_notes (base : Node) {step : Build Node} (h : Notes [] step fun n => [n]) :
    Notes [base] (enterRestrict base >>= fun _ => step >>= fun p => restrict base p)
      fun n => [n] := by
  intro w n w' hn hw
  obtain ⟨predicate, w₂, captured, hrelation, hpredicate, hleave, rfl⟩ := restriction_steps hn
  have hopens := opened_opens w base.dataType .disabled
  have hw₁ := hopens.isSound hw (Scopes.admits_ofType _ _)
  obtain ⟨hkeeps, hcovered⟩ := h _ predicate w₂ hpredicate hw₁
  have hcloses := leave_closes hleave
  obtain ⟨hkept, hscope⟩ := hopens.keeps hkeeps hcloses
  refine ⟨hkept, fun hbase => ?_⟩
  simp only [Node.allCovered_cons, Node.allCovered_nil, and_true] at hbase ⊢
  rw [Node.isCovered_restrict]
  refine ⟨hbase.mono fun _ => hkept.knows, ?_⟩
  refine hcloses.fits (hkeeps.isSound hw₁) ?_ (fun name hoffers => ?_)
    (hcovered Node.allCovered_nil predicate List.mem_cons_self) "where" _ _
  · rw [hscope.heading, Scope.heading_ofType]
    exact isSome_heading_of_isRelation hrelation
  · exact Scope.offers_ofType.mp (hscope.offers.mp hoffers)

-- =========================================================== blocks

/-- Between the bindings of a block, as far as reads go: the scopes
around have at most noted some, and what bound values read is offered
around them. -/
structure Gains (w w' : Workspace) : Prop where
  outer : List.Forall₂ Scope.Widens w.context.scopes.outer w'.context.scopes.outer
  offers : ∀ name, w'.context.scopes.current.Offers name → w.context.scopes.current.Offers name
  reads : w.context.scopes.Tracks w'.context.scopes
  locals : w.locals <+: w'.locals
  pending : w'.pending = w.pending
  frames : w'.frames = w.frames
  sound : w'.IsSound

namespace Gains

theorem refl (hw : w.IsSound) : Gains w w :=
  ⟨List.forall₂_same.mpr fun x _ => .refl x, fun _ => id, .refl _, List.prefix_rfl, rfl, rfl, hw⟩

theorem trans (h : Gains w w₁) (h' : Gains w₁ w') : Gains w w' where
  outer := Scopes.Widens.levels_trans h.outer h'.outer
  offers := fun name hname => h.offers name (h'.offers name hname)
  reads := h.reads.trans h'.reads
  locals := h.locals.trans h'.locals
  pending := h'.pending.trans h.pending
  frames := h'.frames.trans h.frames
  sound := h'.sound

end Gains

/-- The innermost tracker has seen every read that is known, at a level
that is open. -/
theorem tracked_of_knows {name : String} {seen : List Read} {trackers : List (List Read)}
    (hw : w.context.scopes.IsSound) (htrackers : w.context.scopes.trackers = seen :: trackers)
    (hname : w.Knows name) :
    ∃ r ∈ seen.filter (·.level ≤ w.context.scopes.level), r.column.name = name ∧
      w.context.scopes.OffersAt name r.level := by
  obtain ⟨level, hnotes⟩ := hname
  obtain ⟨r, hr, hsame, rfl⟩ := hnotes.tracked seen (by rw [htrackers]; exact List.mem_cons_self)
  refine ⟨r, List.mem_filter.mpr ⟨hr, decide_eq_true ?_⟩, hsame, hnotes.offered⟩
  obtain ⟨scope, hmem, hlevel, -⟩ := hnotes.offered
  rw [← hlevel]
  exact hw.levels scope hmem

/-- One binding. The tracker that was open while its value was built has
seen what the value reads. -/
theorem bindLocal_gains {step : Build Node} (h : Notes [] step fun n => [n]) {name : String}
    {mark : Nat} {u : Unit} (hw : w.IsSound)
    (hu : (beginLocal >>= fun _ => step >>= fun n => located mark (bindLocal name n)) w
      = .ok u w') : Gains w w' := by
  obtain ⟨value, w₂, hvalue, hbind⟩ := binding_steps hu
  have hw₁ : w.binding.IsSound :=
    ⟨⟨hw.scopes.levels, hw.scopes.symbols⟩, hw.locals⟩
  obtain ⟨hkeeps, hcovered⟩ := h _ value w₂ hvalue hw₁
  have hw₂ := hkeeps.isSound hw₁
  have hcovered := hcovered Node.allCovered_nil value List.mem_cons_self
  have hlevels := hkeeps.scopes.levels
  have hreads := hkeeps.reads
  unfold Scopes.Tracks at hreads
  generalize htrackers : w₂.context.scopes.trackers = trackers at hreads
  -- the trackers that were open before stand below the one for this value
  cases hreads with
  | @cons _ seen _ rest _ hreads =>
  obtain ⟨symbol, hkind, hlevel, rfl⟩ := bindLocal_eq_ok hkeeps.pending htrackers hbind
  cases hlevels with
  | cons hcurrent houter =>
  have hsame : ∀ scope ∈ w₂.context.scopes.all, ∃ scope' ∈
      { w₂.context.scopes.current with
        symbols := w₂.context.scopes.current.symbols ++ [symbol] } :: w₂.context.scopes.outer,
      scope'.level = scope.level ∧ scope.symbols ⊆ scope'.symbols :=
    List.forall_mem_cons.mpr ⟨⟨_, List.mem_cons_self, rfl, List.subset_append_left _ _⟩,
      fun scope hmem => ⟨scope, List.mem_cons_of_mem _ hmem, rfl, List.Subset.refl _⟩⟩
  refine ⟨houter, ?_, hreads, ?_, rfl, hkeeps.frames,
    ⟨hw₂.scopes.add hlevel, List.forall_mem_append.mpr ⟨fun l hl => ?_,
      List.forall_mem_singleton.mpr ?_⟩⟩⟩
  · rintro other ⟨found, hfound, hlookup, hname⟩
    rcases List.mem_append.mp hfound with hfound | hfound
    · exact hcurrent.offers.mp ⟨found, hfound, hlookup, hname⟩
    · rw [List.mem_singleton.mp hfound, hkind] at hlookup
      cases hlookup
  · rw [hkeeps.locals]
    exact List.prefix_append _ _
  · refine (hw₂.locals l hl).mono ?_
    rintro other ⟨r, hr, hname, hoffered⟩
    exact ⟨r, hr, hname, hoffered.of_levels hsame⟩
  · refine hcovered.mono fun other hknown => ?_
    obtain ⟨r, hr, hname, hoffered⟩ := tracked_of_knows hw₂.scopes htrackers hknown
    exact ⟨r, hr, hname, hoffered.of_levels hsame⟩

/-- A block is covered by what is known outside: its own scope offers no
columns. -/
theorem block_notes {bindings : Build Unit} {step : Build Node}
    (hbindings : ∀ w u w', bindings w = .ok u w' → w.IsSound → Gains w w')
    (h : Notes [] step fun n => [n]) :
    Notes [] (enterBlock >>= fun first => bindings >>= fun _ => step >>= fun n => block first n)
      fun n => [n] := by
  intro w n w' hn hw
  obtain ⟨u, w₂, body, w₃, captured, w₄, hbind, hbody, hleave, rfl, rfl⟩ := block_steps hn
  -- the scope of the block has no type, so it offers no columns
  have hopens := opened_opens w none .inherit
  have hgains := hbindings _ u w₂ hbind (hopens.isSound hw (Scopes.admits_ofType _ _))
  obtain ⟨hkeeps, hcovered⟩ := h w₂ body w₃ hbody hgains.sound
  have hcloses := leave_closes hleave
  obtain ⟨more, hmore⟩ := hgains.locals
  have hlocals : w₄.locals = w.locals ++ more := by
    rw [hcloses.locals, hkeeps.locals, ← hmore]
    rfl
  have hlevels := hkeeps.scopes.levels
  cases hlevels with
  | cons hcurrent houter =>
  -- the workspace is as it was, but for the scopes around having grown
  have hkept : w.Keeps { w₄ with locals := w₄.locals.take w.locals.length } := by
    have htracks : w.context.scopes.Tracks w₄.context.scopes := by
      unfold Scopes.Tracks
      rw [hcloses.trackers]
      exact hgains.reads.trans hkeeps.reads
    refine ⟨⟨?_, htracks.length_eq.symm⟩, htracks, ?_, ?_, ?_⟩
    · show List.Forall₂ _ w.context.scopes.all w₄.context.scopes.all
      rw [hcloses.outer]
      exact Scopes.Widens.levels_trans hgains.outer houter
    · rw [hlocals]
      exact List.take_left
    · rw [hcloses.pending, hkeeps.pending, hgains.pending]
      rfl
    · rw [hcloses.frames, hkeeps.frames, hgains.frames]
      rfl
  refine ⟨hkept, fun _ => ?_⟩
  rw [Node.allCovered_cons, Node.isCovered_block, List.map_map]
  refine ⟨⟨fun value hvalue => ?_, ?_⟩, Node.allCovered_nil⟩
  · obtain ⟨l, hl, rfl⟩ := List.mem_map.mp hvalue
    have hl := List.mem_of_mem_drop hl
    rw [hcloses.locals, hkeeps.locals] at hl
    -- a value of a binding was built outside of the names bound after it
    exact (hgains.sound.locals l hl).mono fun _ _ => trivial
  · refine (hcovered Node.allCovered_nil body List.mem_cons_self).mono fun name hknown => ?_
    -- what the body knows it knows from outside, since the block offers nothing
    refine (hcloses.knows hknown).resolve_left fun hoffers => ?_
    rw [← hcloses.current, hcurrent.offers] at hoffers
    exact Scope.not_offers_ofType_none (hgains.offers name hoffers)

-- ====================================================== field lists

/-- The innermost open list runs over rows with these columns. -/
def RunsOver (w : Workspace) (columns : List String) : Prop :=
  ∃ f rest heading, w.frames = f :: rest ∧ f.base.heading? = some heading ∧
    columns = Heading.names heading

/-- The segments fit the columns of the open list. -/
def Computed (w : Workspace) (segments : List Segment) (w' : Workspace) : Prop :=
  ∀ columns, w.IsSound → RunsOver w columns →
    w.Keeps w' ∧ ∀ s ∈ segments, s.Fits w'.Knows columns

namespace Computed

theorem nil (w : Workspace) : Computed w [] w :=
  fun _ _ _ => ⟨.refl w, fun _ hs => absurd hs List.not_mem_nil⟩

/-- Segments of a list, then others. -/
theorem append {xs ys : List Segment} (h : Computed w xs w₁) (h' : Computed w₁ ys w') :
    Computed w (xs ++ ys) w' := by
  intro columns hw hruns
  obtain ⟨hkeeps, hfits⟩ := h columns hw hruns
  have hruns' : RunsOver w₁ columns := by
    unfold RunsOver
    rwa [hkeeps.frames]
  obtain ⟨hkeeps', hfits'⟩ := h' columns (hkeeps.isSound hw) hruns'
  refine ⟨hkeeps.trans hkeeps', List.forall_mem_append.mpr ⟨fun s hs => ?_, hfits'⟩⟩
  exact (hfits s hs).mono fun _ hx => .inr (hkeeps'.knows hx)

end Computed

/-- The step makes segments that fit the columns of the open list. -/
def Computes (step : Build α) (made : α → List Segment) : Prop :=
  ∀ w a w', step w = .ok a w' → Computed w (made a) w'

/-- A key names a column that has been found. -/
theorem orderKey_computes (name : String) (descending grouped : Bool) :
    Computes (orderKey name descending grouped) fun s => [s] := by
  intro w segment w' h columns hw _
  obtain ⟨found, w₁, hresolve, h⟩ := bind_eq_ok.mp h
  obtain ⟨hkeeps, hnoted⟩ := resolve_eq_ok hresolve hw
  cases found with
  | none => exact absurd h fail_ne_ok
  | some symbol =>
      dsimp only at h
      split at h
      · rename_i hkind
        cases h
        have hlookup : symbol.kind.isLookup = true := by
          rcases Bool.or_eq_true_iff.mp hkind with hkind | hkind
          · rw [of_decide_eq_true hkind]
            rfl
          · rw [of_decide_eq_true hkind]
            rfl
        refine ⟨hkeeps, List.forall_mem_singleton.mpr ?_⟩
        exact .of_load rfl rfl (.inr (hnoted symbol rfl hlookup).2)
      · exact absurd h fail_ne_ok

/-- Keys read the columns that they name. -/
theorem orderKeys_computes (keys : List OrderKey) : Computes (orderKeys keys) id := by
  induction keys with
  | nil =>
      intro w segments w' h
      cases h
      exact .nil w
  | cons key rest ih =>
      intro w segments w' h
      obtain ⟨segment, others, w₁, hkey, hrest, rfl⟩ := orderKeys_steps h
      have hfirst := orderKey_computes _ _ _ w segment w₁ hkey
      exact hfirst.append (ih w₁ others w' hrest)

/-- The header of a computed field lists what it reads from outside. -/
theorem field_computes {step : Build Node} (h : Notes [] step fun n => [n]) (name : String)
    (mark : Nat) :
    Computes (beginField >>= fun _ => step >>= fun n => located mark (endField name n))
      fun s => [s] := by
  intro w segment w' hs columns hw hruns
  obtain ⟨f, rest, value, w₂, captured, hframes, hvalue, hleave, rfl⟩ := field_steps hs
  obtain ⟨g, rest', heading, hframes', hheading, rfl⟩ := hruns
  obtain ⟨rfl, -⟩ := List.cons.inj (hframes.symm.trans hframes')
  have hopens : w.Opens ((w.onCounter .resetField).opened f.base .inherit)
      (.ofType f.base (w.context.scopes.level + 1)) := ⟨rfl, rfl, rfl, rfl⟩
  have hw₁ := hopens.isSound hw (Scopes.admits_ofType _ _)
  obtain ⟨hkeeps, hcovered⟩ := h _ value w₂ hvalue hw₁
  have hcloses := leave_closes hleave
  obtain ⟨hkept, hscope⟩ := hopens.keeps hkeeps hcloses
  refine ⟨hkept, List.forall_mem_singleton.mpr ?_⟩
  refine hcloses.fits (hkeeps.isSound hw₁) ?_ (fun name hoffers => ?_)
    (hcovered Node.allCovered_nil value List.mem_cons_self) name _ _
  · rw [hscope.heading, Scope.heading_ofType, hheading]
    rfl
  · have hmem := Scope.offers_ofType.mp (hscope.offers.mp hoffers)
    rwa [hheading] at hmem

-- =================================================== closing a list

/-- An item with a type projects or renames a column of the base, or is
computed. -/
theorem outputHeading_items {base out output : Heading} {items : List FieldItem}
    (h : outputHeading base out items = .ok output) :
    ∀ item ∈ items, ∃ type, itemType base item = .ok type := by
  induction items generalizing out with
  | nil => exact fun _ hmem => absurd hmem List.not_mem_nil
  | cons item rest ih =>
      obtain ⟨type, next, htype, -, h⟩ := outputHeading_cons h
      exact List.forall_mem_cons.mpr ⟨⟨type, htype⟩, ih h⟩

theorem mem_names_of_get? {h : Heading} {name : String} {column : Column}
    (hget : Heading.get? h name = some column) : name ∈ h.names := by
  have hname : column.name = name := by simpa using List.find?_some hget
  exact List.mem_map.mpr ⟨column, List.mem_of_find?_eq_some hget, hname⟩

/-- A load of a kept column reads a column of the base. -/
theorem itemSegment_fits {known : String → Prop} {heading : Heading} {item : FieldItem}
    {type : DataType} (htype : itemType heading item = .ok type)
    (hcomputed : ∀ s ∈ item.segment?, s.Fits known heading.names) :
    (itemSegment heading item).Fits known heading.names := by
  have hcolumn (name : String) (h : itemType heading (.project name) = .ok type) :
      name ∈ heading.names := by
    rw [itemType] at h
    cases hget : Heading.get? heading name with
    | some column => exact mem_names_of_get? hget
    | none =>
        rw [hget] at h
        cases h
  cases item with
  | project name => exact .of_load rfl rfl (.inl (hcolumn name htype))
  | rename source target => exact .of_load rfl rfl (.inl (hcolumn source htype))
  | extend segment => exact hcomputed segment rfl

/-- The node of a list runs its keys and items over the columns of the
base. -/
theorem fieldNode_covered {known : String → Prop} {base : Node} {heading output : Heading}
    {type : DataType} {order : List Segment} {items : List FieldItem} {accums : Nat}
    (hbase : base.IsCovered known) (horder : ∀ s ∈ order, s.Fits known base.columns)
    (hitems : ∀ s ∈ items.map (itemSegment heading), s.Fits known base.columns) :
    (fieldNode base heading output type order items accums).IsCovered known := by
  unfold fieldNode
  split
  · exact Node.isCovered_order.mpr ⟨hbase, horder⟩
  · split
    · exact Node.isCovered_project hbase
    · exact Node.isCovered_rename hbase
    · exact Node.isCovered_transform.mpr ⟨hbase, List.forall_mem_append.mpr ⟨horder, hitems⟩⟩

/-- A list that only orders rows puts out no columns of its own; any
other one puts out those of its type. -/
theorem names_subset_fieldNode {base : Node} {heading output : Heading} {type : DataType}
    {order : List Segment} {items : List FieldItem} {accums : Nat}
    (houtput : outputHeading heading [] items = .ok output) (htype : type.heading? = some output) :
    output.names ⊆ (fieldNode base heading output type order items accums).columns := by
  unfold fieldNode
  split
  · rename_i honly
    obtain rfl := List.isEmpty_iff.mp (Bool.and_eq_true_iff.mp honly).1
    cases houtput
    exact List.nil_subset _
  · have hcolumns (n : Node) (hn : n.dataType = type) : output.names ⊆ n.columns := by
      unfold Node.columns
      rw [hn, htype]
      exact List.Subset.refl _
    split
    · exact hcolumns _ rfl
    · exact hcolumns _ rfl
    · exact hcolumns _ rfl

/-- What stays open after a field list: a scope for some of its columns,
or nothing. -/
def PassesOn (isOpen : Bool) (columns : List String) (w w' : Workspace) : Prop :=
  if isOpen then
    ∃ type : DataType, w.Opens w' (.ofType type (w.context.scopes.level + 1)) ∧
      Heading.names (type.heading?.getD []) ⊆ columns
  else w' = w

/-- A level that is closed or emptied passes on what it read of the levels
around it. -/
theorem closeFields_passesOn {type : DataType} {keepOpen : Bool} {c : Counter}
    {columns : List String}
    (h : closeFields keepOpen type w = .ok c w')
    (hcolumns : Heading.names (type.heading?.getD []) ⊆ columns) :
    ∃ w₁, w.Closes w₁ w.context.scopes.current ∧ PassesOn keepOpen columns w₁ w' := by
  cases keepOpen with
  | true =>
      obtain ⟨k, w₁, hk, h⟩ := bind_eq_ok.mp h
      cases hk
      obtain ⟨u, w₂, hdiscard, h⟩ := bind_eq_ok.mp h
      cases h
      obtain ⟨scope, hreenter⟩ := discard_eq_ok.mp hdiscard
      obtain ⟨w₁, hcloses, hopens⟩ := reenter_closes hreenter
      exact ⟨w₁, hcloses, type, hopens, hcolumns⟩
  | false =>
      obtain ⟨captured, w₁, hleave, h⟩ := bind_eq_ok.mp h
      cases h
      have hcloses := leave_closes hleave
      rw [← hcloses.current] at hcloses
      exact ⟨w', hcloses, rfl⟩

/-- Closing a list, given its keys and computed fields. -/
theorem finishFields_passesOn {base n : Node} {order : List Segment} {keepOpen allBut : Bool}
    {entries : List (FieldSpec Segment)} {rest : List FieldFrame}
    (hframes : w.frames = ⟨base.dataType, allBut⟩ :: rest)
    (h : finishFields base order entries keepOpen w = .ok n w') :
    (∃ w₁, Closes { w with frames := w.frames.tail } w₁ w.context.scopes.current ∧
      PassesOn keepOpen n.columns w₁ w') ∧
    ∀ known, base.IsCovered known →
      (∀ s ∈ order ++ FieldSpec.computed entries, s.Fits known base.columns) →
          n.IsCovered known := by
  obtain ⟨g, rest', items, output, c, hframes', hitems, hheading, hclose, rfl⟩ :=
    finishFields_steps h
  obtain ⟨rfl, rfl⟩ := List.cons.inj (hframes'.symm.trans hframes)
  obtain ⟨-, hperm⟩ := fieldItems_eq_ok hitems (outputHeading_eq_ok hheading List.nodup_nil)
  have htype : DataType.heading? (if base.dataType.isRelation then .relation output
      else .tuple output) = some output := by
    split
    · rfl
    · rfl
  refine ⟨closeFields_passesOn hclose ?_, fun known hbase hfits => ?_⟩
  · rw [htype]
    exact names_subset_fieldNode hheading htype
  · obtain ⟨horder, hcomputed⟩ := List.forall_mem_append.mp hfits
    refine fieldNode_covered hbase horder fun s hs => ?_
    obtain ⟨item, hitem, rfl⟩ := List.mem_map.mp hs
    obtain ⟨type, htype⟩ := outputHeading_items hheading item hitem
    refine itemSegment_fits htype fun s hs => hcomputed s (hperm.mem_iff.mp ?_)
    exact List.mem_filterMap.mpr ⟨item, hitem, hs⟩

/-- The step builds a tree that is covered by what is known around it;
with `isOpen` it leaves the scope of the tree's field list. -/
def Gathers (isOpen : Bool) (step : Build Node) : Prop :=
  ∀ w n w', step w = .ok n w' → w.IsSound → ∃ w₁, w.Keeps w₁ ∧ n.IsCovered w₁.Knows ∧
    PassesOn isOpen n.columns w₁ w'

namespace Gathers

variable {step : Build Node}

/-- What is no field list leaves nothing open. -/
theorem closed {keepOpen : Bool} (h : Notes [] step fun n => [n]) :
    Gathers (keepOpen && false) step := by
  intro w n w' hn hw
  obtain ⟨hkeeps, hcovered⟩ := h w n w' hn hw
  rw [Bool.and_false]
  exact ⟨w', hkeeps, hcovered Node.allCovered_nil n List.mem_cons_self, rfl⟩

/-- What is built to its end notes its reads. -/
theorem notes (h : Gathers false step) : Notes [] step fun n => [n] := by
  intro w n w' hn hw
  obtain ⟨w₁, hkeeps, hcovered, rfl⟩ := h w n w' hn hw
  exact ⟨hkeeps, fun _ => Node.allCovered_cons.mpr ⟨hcovered, Node.allCovered_nil⟩⟩

/-- A mark only matters to a fault. -/
theorem located {isOpen : Bool} {mark : Nat} (h : Gathers isOpen step) :
    Gathers isOpen (located mark step) :=
  fun w n w' hn => h w n w' (located_eq_ok.mp hn)

end Gathers

/-- A list from its opening to its closing. Its scope offers columns of
the base only. -/
theorem list_gathers (allBut : Bool) {node n : Node} {opens : Build Unit} {keys : List OrderKey}
    {entries : Build (List (FieldSpec Segment))} {keepOpen : Bool}
    (hopens : ∀ u w₂, opens w₁ = .ok u w₂ → node.dataType.heading?.isNone = false ∧
      ∃ (type : DataType) (u : Workspace), w.Opens u (.ofType type (w.context.scopes.level + 1)) ∧
        Heading.names (type.heading?.getD []) ⊆ node.columns ∧
        w₂ = { u with frames := ⟨node.dataType, allBut⟩ :: u.frames })
    (hentries : Computes entries FieldSpec.computed) (hw : w.IsSound)
    (hnode : node.IsCovered w.Knows)
    (h : (opens >>= fun _ => orderKeys keys >>= fun order => entries >>= fun fields =>
      finishFields node order fields keepOpen) w₁ = .ok n w') :
    ∃ w₂, w.Keeps w₂ ∧ n.IsCovered w₂.Knows ∧ PassesOn keepOpen n.columns w₂ w' := by
  obtain ⟨v, w₂, hopen, h⟩ := bind_eq_ok.mp h
  obtain ⟨order, w₃, horder, h⟩ := bind_eq_ok.mp h
  obtain ⟨fields, w₄, hfields, hfinish⟩ := bind_eq_ok.mp h
  obtain ⟨hheading, type, u, hopens, hcolumns, rfl⟩ := hopens v w₂ hopen
  -- the level of the list is open, with columns of the base only
  have hu := hopens.isSound hw (Scopes.admits_ofType _ _)
  have hruns : RunsOver { u with frames := ⟨node.dataType, allBut⟩ :: u.frames } node.columns := by
    obtain ⟨heading, hheading⟩ := Option.isSome_iff_exists.mp
      (Option.isNone_eq_false_iff.mp hheading)
    refine ⟨_, _, heading, rfl, hheading, ?_⟩
    rw [Node.columns, hheading]
    rfl
  -- keys and entries compute their segments in this level
  have hsegments := (orderKeys_computes keys _ order w₃ horder).append
    (hentries w₃ fields w₄ hfields)
  obtain ⟨hkeeps, hfits⟩ := hsegments node.columns ⟨hu.scopes, hu.locals⟩ hruns
  obtain ⟨⟨w₅, hcloses, hpasses⟩, hcovered⟩ := finishFields_passesOn hkeeps.frames hfinish
  obtain ⟨hkept, hscope⟩ := hopens.keeps hkeeps.dropFrame hcloses
  -- what a segment knows from the level is a column of the base
  refine ⟨w₅, hkept, hcovered _ (hnode.mono fun _ => hkept.knows) fun s hs => ?_, hpasses⟩
  refine (hfits s hs).mono fun name hknown => (hcloses.knows hknown).imp_left fun hoffers => ?_
  exact hcolumns (Scope.offers_ofType.mp (hscope.offers.mp hoffers))

/-- A list over a base opens its own scope, or takes over the one left
for it. -/
theorem fields_gathers {isOpen : Bool} {base : Build Node} (allBut keepOpen : Bool)
    (keys : List OrderKey) {entries : Build (List (FieldSpec Segment))}
    (hbase : Gathers isOpen base) (hentries : Computes entries FieldSpec.computed) :
    Gathers keepOpen (base >>= fun node =>
      let rest (_ : Unit) := orderKeys keys >>= fun order => entries >>= fun fields =>
        finishFields node order fields keepOpen
      if isOpen then chainFields node allBut >>= rest else enterFields node allBut >>= rest) := by
  intro w n w' hn hw
  obtain ⟨node, w₁, hnode, hlist⟩ := bind_eq_ok.mp hn
  obtain ⟨w₀, hkeeps, hcovered, hleft⟩ := hbase w node w₁ hnode hw
  have hw₀ := hkeeps.isSound hw
  have hdone : ∃ w₂, w₀.Keeps w₂ ∧ n.IsCovered w₂.Knows ∧ PassesOn keepOpen n.columns w₂ w' := by
    cases isOpen with
    | true =>
        obtain ⟨type, hopens, hcolumns⟩ := hleft
        refine list_gathers allBut (fun u w₂ h => ?_) hentries hw₀ hcovered hlist
        obtain ⟨hheading, rfl⟩ := chainFields_eq_ok h
        exact ⟨hheading, type, w₁, hopens, hcolumns, rfl⟩
    | false =>
        cases hleft
        refine list_gathers allBut (fun u w₂ h => ?_) hentries hw₀ hcovered hlist
        obtain ⟨hheading, rfl⟩ := enterFields_eq_ok h
        exact ⟨hheading, node.dataType, _, opened_opens w₁ _ .enabled, List.Subset.refl _, rfl⟩
  obtain ⟨w₂, hclosed, hn, hleaves⟩ := hdone
  exact ⟨w₂, hkeeps.trans hclosed, hn, hleaves⟩

end Build

end RelQuery
