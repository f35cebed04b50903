/-
Failures inside levels, and of whole statements.

A construct with a level of its own fails in one of three places. The
check before the level is opened leaves the context as it was. What
fails inside leaves the level open, whatever it does itself, so long as
it takes no level away. And once the level is closed again, the checks
that follow see the context that was there before, but for noted reads
and counted slots.

The level of a field list is opened by the first list of a row of lists
and closed by the last one, so a list that fails in between leaves the
context deeper than where the first one began.

A failure inside a step that follows others is that of the whole only if
the others keep the context. So the walk carries both promises together,
that of a step that is done and that of one that fails (`fallDiscipline`).
-/
import RelQuery.Proofs.Build.Failure

namespace RelQuery

open Workspace

namespace Build

variable {α β : Type} {w w' w₁ : Workspace} {e : BuildFault}

-- =========================================================== levels

/-- Closing fails only where nothing is open, if there are as many
counters as levels. -/
theorem leave_eq_error (h : leave w = .error e w') (hentries : w.context.counters.entries ≠ []) :
    w' = w := by
  obtain ⟨⟨⟨current, outer, trackers⟩, ⟨root, entries⟩⟩, locals, pending, frames⟩ := w
  cases outer with
  | nil =>
      cases h
      rfl
  | cons parent rest =>
      cases entries with
      | nil => exact absurd rfl hentries
      | cons entry entries => cases h

/-- A level that was opened has a counter. -/
theorem entries_of_entered {scope : Scope} {mode : FoldMode} {slots : List Nat}
    (h : (w.entered scope mode).Widens w₁ slots) : w₁.context.counters.entries ≠ [] := by
  have hdepth : w₁.context.counters.depth = w.context.counters.depth + 1 := by
    rw [h.counters, Counters.depth_update]
    rfl
  intro hnil
  rw [Counters.depth, hnil] at hdepth
  cases hdepth

-- ===================================================== restrictions

/-- The check comes before the level is opened. -/
theorem enterRestrict_falls (base : Node) : Falling (enterRestrict base) := by
  unfold enterRestrict
  split
  · exact fun _ _ _ h => nomatch h
  · exact .fail _

/-- The checks of a predicate are made when its level is closed. -/
theorem restrict_eq_error {base predicate : Node} (h : restrict base predicate w = .error e w') :
    leave w = .error e w' ∨ ∃ captured, leave w = .ok captured w' := by
  obtain hleave | ⟨captured, w₁, hleave, h⟩ := bind_eq_error.mp h
  · exact .inl hleave
  · have hchecks : w' = w₁ := by
      dsimp only at h
      split at h
      · obtain hfail | ⟨u, w₂, hfail, -⟩ := bind_eq_error.mp h
        · cases hfail
          rfl
        · exact absurd hfail fail_ne_ok
      · generalize Builtin.find? "restrict" = found at h
        cases found with
        | some symbol =>
            obtain hresolve | ⟨u, w₂, -, hpure⟩ := bind_eq_error.mp h
            · exact ofExcept_eq_error (discard_eq_error hresolve)
            · cases hpure
        | none => cases h
    subst hchecks
    exact .inr ⟨captured, hleave⟩

/-- A predicate that fails leaves the level of its restriction open. -/
theorem restrict_falls (base : Node) {step : Build Node} (hok : Turns [] step fun n => [n])
    (h : Falling step) :
    Falling (enterRestrict base >>= fun _ => step >>= fun p => restrict base p) := by
  intro w e w' he
  obtain henter | ⟨u, w₁, henter, he⟩ := bind_eq_error.mp he
  · exact enterRestrict_falls base w e w' henter
  · obtain ⟨-, rfl⟩ := enterRestrict_eq_ok henter
    obtain hpredicate | ⟨predicate, w₂, hpredicate, hrestrict⟩ := bind_eq_error.mp he
    · exact .inr (h _ e w' hpredicate).depth_le
    · obtain ⟨slots, hgrows, -, -⟩ := hok _ predicate w₂ hpredicate
      obtain hleave | ⟨captured, hleave⟩ := restrict_eq_error hrestrict
      · rw [leave_eq_error hleave (entries_of_entered hgrows.toWidens)]
        exact .inr (Nat.le_of_eq hgrows.depth.symm)
      · exact .inl (leave_own rfl hgrows.toWidens hleave).1.kept

-- =========================================================== blocks

/-- Trackers are no levels. -/
theorem outer_takeReads (s : Scopes) : s.takeReads.2.outer = s.outer := by
  unfold Scopes.takeReads
  split
  · rfl
  · rfl

/-- Binding a value opens and closes no level, also when its name is
taken. -/
theorem bindLocal_sinks (name : String) (value : Node) : Sinks (bindLocal name value) := by
  intro w e w' h
  rw [bindLocal, get_bind_apply] at h
  obtain hreads | ⟨reads, w₁, hreads, h⟩ := bind_eq_error.mp h
  · cases hreads
  · obtain hrestore | ⟨u, w₂, hrestore, h⟩ := bind_eq_error.mp h
    · cases hrestore
    · have hdepth : w₂.context.depth = w.context.depth := by
        cases hreads
        cases hrestore
        have houter := congrArg List.length (outer_takeReads w.context.scopes)
        dsimp only
        split
        · exact houter
        · exact houter
      rw [get_bind_apply] at h
      obtain hadd | ⟨scopes, w₃, -, h⟩ := bind_eq_error.mp h
      · rw [ofExcept_eq_error hadd]
        exact Nat.le_of_eq hdepth.symm
      · cases h

/-- One binding of a block, begun and bound. -/
theorem binding_sinks {step : Build Node} (h : Falling step) (hok : Turns [] step fun n => [n])
    (name : String) (mark : Nat) :
    Sinks (beginLocal >>= fun _ => step >>= fun n => located mark (bindLocal name n)) := by
  intro w e w' he
  obtain hbegin | ⟨u, w₁, hbegin, he⟩ := bind_eq_error.mp he
  · cases hbegin
  · have hbegun : w₁.context.depth = w.context.depth := by
      cases hbegin
      rfl
    rw [← hbegun]
    obtain hvalue | ⟨value, w₂, hvalue, hbind⟩ := bind_eq_error.mp he
    · exact (h w₁ e w' hvalue).depth_le
    · obtain ⟨e', hbind⟩ := located_eq_error hbind
      rw [← (hok.steady w₁ value w₂ hvalue).depth]
      exact bindLocal_sinks name value w₂ e' w' hbind

theorem Binds.depth (h : Binds w w') : w'.context.depth = w.context.depth :=
  h.outer.length_eq.symm

/-- A binding or a body that fails leaves the level of its block open. -/
theorem block_falls {bindings : Build Unit} {step : Build Node}
    (hbinds : ∀ w u w', bindings w = .ok u w' → Binds w w') (hbindings : Sinks bindings)
    (hok : Turns [] step fun n => [n]) (h : Falling step) :
    Falling (enterBlock >>= fun first => bindings >>= fun _ =>
        step >>= fun n => block first n) := by
  -- the fault may come from any of the steps, and each is behind those that
  -- succeeded
  intro w e w' he
  obtain henter | ⟨first, w₁, henter, he⟩ := bind_eq_error.mp he
  · cases henter
  · have hopened : w₁ = w.opened none .inherit := by
      cases henter
      rfl
    subst hopened
    -- from here on the level of the block is open
    refine .inr ?_
    obtain hbind | ⟨u, w₂, hbind, he⟩ := bind_eq_error.mp he
    · exact hbindings _ e w' hbind
    · have hbound := hbinds _ u w₂ hbind
      show (w.opened none .inherit).context.depth ≤ _
      rw [← hbound.depth]
      obtain hbody | ⟨body, w₃, hbody, hblock⟩ := bind_eq_error.mp he
      · exact (h w₂ e w' hbody).depth_le
      · obtain ⟨slots, hgrows, -, -⟩ := hok w₂ body w₃ hbody
        obtain hleave | ⟨u, w₄, -, hrest⟩ := bind_eq_error.mp hblock
        -- the block can be left, since its own entry is still there
        · have hentries : w₃.context.counters.entries ≠ [] := by
            have hdepth : w₃.context.counters.depth = w.context.counters.depth + 1 := by
              rw [hgrows.counters, Counters.depth_update, hbound.counters]
              rfl
            intro hnil
            rw [Counters.depth, hnil] at hdepth
            cases hdepth
          rw [leave_eq_error (discard_eq_error hleave) hentries]
          exact Nat.le_of_eq hgrows.depth.symm
        · cases hrest

-- ====================================================== field lists

/-- A key is looked up before it is read. -/
theorem orderKey_falls (name : String) (descending grouped : Bool) :
    Falling (orderKey name descending grouped) := by
  refine (resolve_falls name).bind (resolve_steady name) fun found => ?_
  cases found with
  | none => exact .fail _
  | some symbol =>
      dsimp only
      split
      · exact .pure _
      · exact .fail _

/-- Keys are loads, and none of them opens a level. -/
theorem orderKeys_falls (keys : List OrderKey) : Falling (orderKeys keys) := by
  induction keys with
  | nil => exact .pure _
  | cons key rest ih =>
      refine (orderKey_falls _ _ _).located.bind (fun w s w' h => ?_) fun _ => ih.map _
      exact (orderKey_eq_ok (located_eq_ok.mp h)).1.kept

/-- A list that is missing changes nothing. -/
theorem frame_eq_error (h : frame w = .error e w') : w' = w := by
  rw [frame, get_bind_apply] at h
  generalize w.frames = frames at h
  cases frames with
  | nil =>
      cases h
      rfl
  | cons f rest => cases h

/-- One computed field of a list. -/
theorem field_sinks {step : Build Node} (h : Falling step) (hok : Turns [] step fun n => [n])
    (name : String) (mark : Nat) :
    Sinks (beginField >>= fun _ => step >>= fun n => located mark (endField name n)) := by
  intro w e w' he
  obtain hbegin | ⟨u, w₁, hbegin, he⟩ := bind_eq_error.mp he
  · obtain hframe | ⟨f, w₁, -, hopen⟩ := bind_eq_error.mp hbegin
    · exact Nat.le_of_eq (by rw [frame_eq_error hframe])
    · cases hopen
  · obtain ⟨f, rest, -, rfl⟩ := beginField_eq_ok hbegin
    refine Nat.le_of_succ_le ?_
    obtain hvalue | ⟨value, w₂, hvalue, hend⟩ := bind_eq_error.mp he
    · exact (h _ e w' hvalue).depth_le
    · obtain ⟨e', hend⟩ := located_eq_error hend
      obtain ⟨slots, hgrows, -, -⟩ := hok _ value w₂ hvalue
      obtain hcounter | ⟨c, w₃, hcounter, hrest⟩ := bind_eq_error.mp hend
      · cases hcounter
      · cases hcounter
        obtain hleave | ⟨captured, w₄, -, hpure⟩ := bind_eq_error.mp hrest
        · rw [leave_eq_error hleave (entries_of_entered hgrows.toWidens)]
          exact Nat.le_of_eq hgrows.depth.symm
        · cases hpure

/-- Entries are set against the columns of the base, and nothing changes. -/
theorem fieldItems_looks (f : FieldFrame) (entries : List (FieldSpec Segment)) :
    Looks (fieldItems f entries) fun _ => True := by
  unfold fieldItems
  split
  · exact Looks.ofExcept.bind fun _ _ => .pure trivial
  · exact .pure trivial

/-- A list that cannot be put together changes nothing. -/
theorem fieldItems_eq_error {f : FieldFrame} {entries : List (FieldSpec Segment)}
    (h : fieldItems f entries w = .error e w') : w' = w := by
  unfold fieldItems at h
  split at h
  · obtain hexpand | ⟨expanded, w₁, -, hpure⟩ := bind_eq_error.mp h
    · exact ofExcept_eq_error hexpand
    · cases hpure
  · cases h

/-- Closing a list does not take a level away unless it succeeds. -/
theorem closeFields_eq_error {keepOpen : Bool} {type : DataType}
    (h : closeFields keepOpen type w = .error e w') (hentries : w.context.counters.entries ≠ []) :
    w' = w := by
  cases keepOpen with
  | true =>
      obtain hcounter | ⟨c, w₁, hcounter, h⟩ := bind_eq_error.mp h
      · cases hcounter
      · cases hcounter
        obtain hreenter | ⟨u, w₂, -, hpure⟩ := bind_eq_error.mp h
        · have hpop := discard_eq_error hreenter
          obtain ⟨⟨⟨current, outer, trackers⟩, counters⟩, locals, pending, frames⟩ := w
          cases outer with
          | nil =>
              cases hpop
              rfl
          | cons parent rest => cases hpop
        · cases hpure
  | false =>
      obtain hleave | ⟨captured, w₁, -, hpure⟩ := bind_eq_error.mp h
      · exact leave_eq_error hleave hentries
      · cases hpure

/-- The level of a list is closed before its output is put together, so
what fails there leaves the context as it was. -/
theorem finishFields_eq_error {base : Node} {order : List Segment}
    {entries : List (FieldSpec Segment)} {keepOpen : Bool}
    (h : finishFields base order entries keepOpen w = .error e w')
    (hentries : w.context.counters.entries ≠ []) : w'.context = w.context := by
  obtain hframe | ⟨g, w₂, hframe, hrest⟩ := bind_eq_error.mp h
  · rw [frame_eq_error hframe]
  obtain htail | ⟨u, w₃, htail, hrest⟩ := bind_eq_error.mp hrest
  · cases htail
  have hcontext : w₃.context = w.context := by
    obtain ⟨rest, -, rfl⟩ := frame_eq_ok hframe
    cases htail
    rfl
  rw [← hcontext] at hentries ⊢
  obtain hitems | ⟨items, w₄, hitems, hrest⟩ := bind_eq_error.mp hrest
  · rw [fieldItems_eq_error hitems]
  rw [← (fieldItems_looks g entries w₃ items w₄ hitems).1] at hentries ⊢
  obtain houtput | ⟨output, w₅, houtput, hrest⟩ := bind_eq_error.mp hrest
  · rw [ofExcept_eq_error houtput]
  rw [(ofExcept_eq_ok.mp houtput).2] at hentries ⊢
  obtain hclose | ⟨c, w₆, -, hpure⟩ := bind_eq_error.mp hrest
  · rw [closeFields_eq_error hclose hentries]
  · cases hpure

/-- A list that has its level: whatever fails leaves it. -/
theorem list_sinks {node : Node} {keys : List OrderKey} {t : DataType} {f : FieldFrame}
    {fields : Build (List (FieldSpec Segment))} {keepOpen : Bool}
    (hfields : Sinks fields) (hlists : Lists fields FieldSpec.computed)
    (h : (orderKeys keys >>= fun order => fields >>= fun entries =>
      finishFields node order entries keepOpen)
        { w.opened t .enabled with frames := f :: w.frames } = .error e w') :
    w.context.depth < w'.context.depth := by
  obtain horder | ⟨order, w₁, horder, h⟩ := bind_eq_error.mp h
  · exact (orderKeys_falls keys _ e w' horder).depth_le
  have hkeys := (orderKeys_eq_ok horder).1
  show (w.opened t .enabled).context.depth ≤ _
  rw [← show _ = (w.opened t .enabled).context.depth from hkeys.depth]
  obtain hentries | ⟨entries, w₂, hentries, hfinish⟩ := bind_eq_error.mp h
  · exact hfields w₁ e w' hentries
  obtain ⟨slots, hwidens, -, -⟩ := hlists w₁ entries w₂ hentries
  rw [← hwidens.depth]
  have hlevel := Widens.dropFrame (w := w.opened t .enabled) (hkeys.toWidens.trans hwidens)
  have hcounters := entries_of_entered hlevel
  exact Nat.le_of_eq (by rw [finishFields_eq_error hfinish hcounters])

/-- A list that follows another one only checks its base. -/
theorem chainFields_falls (base : Node) (allBut : Bool) : Falling (chainFields base allBut) := by
  unfold chainFields
  split
  · exact (Falling.fail _).bind (fun _ _ _ h => absurd h fail_ne_ok) fun _ _ _ _ h => nomatch h
  · exact fun _ _ _ h => nomatch h

/-- The check comes before the level is opened. -/
theorem enterFields_falls (base : Node) (allBut : Bool) : Falling (enterFields base allBut) := by
  unfold enterFields
  split
  · exact (Falling.fail _).bind (fun _ _ _ h => absurd h fail_ne_ok) fun _ _ _ _ h => nomatch h
  · exact fun _ _ _ h => nomatch h

/-- A list fails before its level is opened, inside of it or after it is
closed. -/
theorem fields_falls {isOpen : Bool} {base : Build Node} (allBut keepOpen : Bool)
    (keys : List OrderKey) {fields : Build (List (FieldSpec Segment))}
    (hbuilds : Builds isOpen base) (hbase : Falling base)
    (hlists : Lists fields FieldSpec.computed) (hfields : Sinks fields) :
    Falling (base >>= fun node =>
      let rest (_ : Unit) := orderKeys keys >>= fun order => fields >>= fun entries =>
        finishFields node order entries keepOpen
      if isOpen then chainFields node allBut >>= rest else enterFields node allBut >>= rest) := by
  intro w e w' he
  obtain hnode | ⟨node, w₁, hnode, he⟩ := bind_eq_error.mp he
  · exact hbase w e w' hnode
  obtain ⟨slots, w₀, hgrows, -, -, hleft⟩ := hbuilds w node w₁ hnode
  refine .of_kept hgrows.kept ?_
  cases isOpen with
  | true =>
      obtain ⟨t, rfl⟩ := hleft
      obtain hopen | ⟨u, w₂, hopen, hlist⟩ := bind_eq_error.mp he
      · exact .inr (chainFields_falls node allBut _ e w' hopen).depth_le
      · rw [(chainFields_eq_ok hopen).2] at hlist
        exact .inr (list_sinks hfields hlists hlist)
  | false =>
      cases hleft
      obtain hopen | ⟨u, w₂, hopen, hlist⟩ := bind_eq_error.mp he
      · exact enterFields_falls node allBut _ e w' hopen
      · rw [(enterFields_eq_ok hopen).2] at hlist
        exact .inr (list_sinks hfields hlists hlist)

-- ========================================================= the walk

/-- Whether an entry renames a column is only looked up. -/
theorem renameSource?_falls (e : Expr) : Falling (renameSource? e) := by
  have hrename (name : String) : Falling (isRename name) := by
    refine .get_bind fun w => ?_
    split
    · exact .pure _
    · exact .pure _
  unfold renameSource?
  split
  · exact (hrename _).map _
  · exact .pure _

/-- An expression that fails leaves the context alone or deeper. Steps that
succeed keep the context, which is known of them by the slots they turn. -/
def fallDiscipline (catalog : Catalog) : Discipline catalog where
  Makes given step made := Turns given step made ∧ Falling step
  Builds keepOpen e := Falling (expression catalog keepOpen e)
  Binds bindings := Sinks (blockBindings catalog bindings)
  Lists entries := Sinks (fieldEntries catalog entries)
  pure h := ⟨.wrap h, .pure _⟩
  throw f := ⟨.throw f, .throw f⟩
  bind h hf := ⟨h.1.bind fun a => (hf a).1, h.2.bind h.1.steady fun a => (hf a).2⟩
  frame others h := ⟨h.1.frame_left others, h.2⟩
  located _ h := ⟨.located h.1, .located h.2⟩
  uncallable _ name := by
    refine ⟨.uncallable name, .get_bind fun w => ?_⟩
    split
    · exact .fail _
    · exact .fail _
  builtin link args type := ⟨builtin_turns link args type,
    (falling_stepwise.bind (falling_stepwise.noteWindow link) fun _ =>
      falling_stepwise.bind (falling_stepwise.allocateFor link) fun _ =>
        falling_stepwise.pure _).1⟩
  function link args type :=
    ⟨function_turns link args type, (falling_stepwise.allocateFor link).1.map _⟩
  fold op arg type := ⟨fold_turns op arg type, (allocate_falls _ _).map _⟩
  name name := ⟨useName_turns catalog name, useName_falls catalog name⟩
  currentRow := ⟨currentRow_turns, currentRow_falls⟩
  restrict base _ h := ⟨restrict_turns base h.1, restrict_falls base h.1 h.2⟩
  binds_nil := (Falling.pure _).sinks
  binds_cons hvalue hrest := by
    rename_i name value rest
    have hall := (binding_sinks hvalue.2 hvalue.1 name value.mark).bind
      (fun w u w' h => (bindLocal_binds hvalue.1 h).depth) fun _ => hrest
    -- the walk nests to the right what `binding_sinks` takes as one step
    simp only [bind_assoc] at hall
    exact hall
  block hbindings hbody := ⟨block_turns (blockBindings_binds catalog _) hbody.1,
    block_falls (blockBindings_binds catalog _) hbindings hbody.1 hbody.2⟩
  lists_nil := (Falling.pure _).sinks
  lists_plain hrest := hrest.map _
  lists_computed hvalue hrest := by
    rename_i name mark value rest
    refine (renameSource?_falls value).sinks.bind
      (fun w s w' h => by rw [(renameSource?_looks value w s w' h).1]) fun source => ?_
    cases source with
    | some source => exact hrest.map _
    | none =>
        have hfield := field_sinks hvalue.2 hvalue.1 name mark
        have hlist := hfield.bind (fun w s w' h => ?_)
          fun s => hrest.map fun fs => FieldSpec.extend name s :: fs
        · simp only [bind_assoc] at hlist
          exact hlist
        · obtain ⟨slots, hwidens, -, -⟩ := field_lists hvalue.1 name mark w s w' h
          exact hwidens.depth
  closed _ h := h.2
  makes h := ⟨(expression_builds catalog false _).turns, h⟩
  fields hbase hentries := .located (fields_falls _ _ _ (expression_builds catalog true _) hbase
    (fieldEntries_lists catalog _) hentries)

/-- An expression that fails leaves the context alone or deeper. -/
theorem expression_falls (catalog : Catalog) (keepOpen : Bool) (e : Expr) :
    Falling (expression catalog keepOpen e) :=
  (fallDiscipline catalog).walk keepOpen e

-- ======================================================= statements

/-- An assignment is checked with nothing open. -/
theorem assign_falls (catalog : Catalog) (name : String) (value : Node) :
    Falling (assign catalog name value) := by
  unfold assign
  split
  · exact .fail _
  · split
    · exact .pure _
    · split
      · split
        · exact .pure _
        · exact .fail _
      · exact .fail _

/-- A type definition opens no level. -/
theorem typeDef_falls (catalog : Catalog) (name : String) (supertype : Option String)
    (components : Heading) : Falling (typeDef catalog name supertype components) := by
  unfold typeDef
  split
  · exact .fail _
  · exact .bind .ofExcept Looks.ofExcept.steady fun _ => Falling.ofExcept.map _

/-- The name is checked before the parameters are declared. -/
theorem enterDefine_falls (name : String) (params : Heading) :
    Falling (enterDefine name params) := by
  unfold enterDefine
  split
  · exact .fail _
  · exact fun _ _ _ h => nomatch h

/-- A definition is checked once its level is closed. -/
theorem define_eq_error {name : String} {params : Heading} {returns : Option DataType} {body : Node}
    (h : define name params returns body w = .error e w') :
    leave w = .error e w' ∨ ∃ captured, leave w = .ok captured w' := by
  obtain hleave | ⟨captured, w₁, hleave, h⟩ := bind_eq_error.mp h
  · exact .inl hleave
  · dsimp only at h
    generalize returns.filter _ = mismatch at h
    cases mismatch with
    | some declared =>
        cases h
        exact .inr ⟨captured, hleave⟩
    | none => cases h

/-- The result of a function is checked when its level is closed. -/
theorem define_falls {step : Build Node} (hok : Turns [] step fun n => [n]) (h : Falling step)
    (name : String) (params : Heading) (returns : Option DataType) (mark : Nat) :
    Falling (located mark (enterDefine name params) >>= fun _ => step >>= fun n =>
      located mark (define name params returns n)) := by
  intro w e w' he
  obtain henter | ⟨u, w₁, henter, he⟩ := bind_eq_error.mp he
  · exact (enterDefine_falls name params).located w e w' henter
  · obtain rfl := enterDefine_eq_ok (located_eq_ok.mp henter)
    obtain hbody | ⟨body, w₂, hbody, hdefine⟩ := bind_eq_error.mp he
    · exact .inr (h _ e w' hbody).depth_le
    · obtain ⟨e', hdefine⟩ := located_eq_error hdefine
      obtain ⟨slots, hgrows, -, -⟩ := hok _ body w₂ hbody
      obtain hleave | ⟨captured, hleave⟩ := define_eq_error hdefine
      · rw [leave_eq_error hleave (entries_of_entered hgrows.toWidens)]
        exact .inr (Nat.le_of_eq hgrows.depth.symm)
      · exact .inl (leave_own rfl hgrows.toWidens hleave).1.kept

/-- A statement that fails keeps the context or leaves a level open. -/
theorem statement_falls (catalog : Catalog) (sentence : Sentence) :
    Falling (statement catalog sentence) := by
  cases sentence with
  | expression value => exact (expression_falls catalog false value).map _
  | assign mark name value =>
      exact (expression_falls catalog false value).bind
        (expression_builds catalog false value).turns.steady
        fun n => (assign_falls catalog name n).located
  | define mark name params returns body =>
      have hok := (expression_builds catalog false body).turns
      have hbody := expression_falls catalog false body
      -- the header opens no level, so what is left open is left by the body
      refine (heading_falls catalog params).bind
          (heading_looks catalog params).steady fun columns => ?_
      cases returns with
      | none => exact define_falls hok hbody name columns none mark
      | some t =>
          cases htype : typeOf catalog t with
          | ok type =>
              simp only [htype]
              exact define_falls hok hbody name columns (some type) mark
          | error f =>
              simp only [htype]
              -- a type that is not known ends the statement before its level is opened
              exact (Falling.throw f).bind (fun _ _ _ h => nomatch h) fun declared =>
                define_falls hok hbody name columns declared mark
  | typeDef mark name supertype components =>
      refine (heading_falls catalog components).bind (heading_looks catalog components).steady
        fun columns w e w' h => ?_
      have hfails := typeDef_falls catalog name (supertype.map (·.1)) columns w
      cases htypeDef : typeDef catalog name (supertype.map (·.1)) columns w with
      | ok s w₁ =>
          rw [htypeDef] at h
          cases h
      | error f w₁ =>
          rw [htypeDef] at h
          cases h
          exact hfails f w' htypeDef

end Build

end RelQuery
