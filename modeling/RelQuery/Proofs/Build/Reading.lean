/-
What a step of building notes about the rows that its trees read.

`Keeps` is what the scopes, the bound values and the open lists of a
workspace have in common with those of an earlier one: counters aside,
they differ by reads that were noted in between. A workspace knows the
names that its scopes have noted; what is known stays known.

`Notes given step made` is the promise of a step in these terms: if the
given trees are covered by what is known before, those it makes are
covered by what is known afterwards. Names are noted where they are
found. A use of a block binding notes again what the bound value reads,
and the copy of the value reads the same.
-/
import RelQuery.Proofs.Build.Walk
import RelQuery.Proofs.Context.Note
import RelQuery.Proofs.Node.RowRead

namespace RelQuery

open Node (AllCovered)

namespace Workspace

/-- The same scopes, bound values and open lists later on. -/
structure Keeps (w w' : Workspace) : Prop where
  scopes : w.context.scopes.Widens w'.context.scopes
  reads : w.context.scopes.Tracks w'.context.scopes
  locals : w'.locals = w.locals
  pending : w'.pending = w.pending
  frames : w'.frames = w.frames

/-- A read of the name has been noted. -/
def Knows (w : Workspace) (name : String) : Prop :=
  w.context.scopes.Notes name

/-- What a bound value reads is offered by scopes that are open. -/
structure IsSound (w : Workspace) : Prop where
  scopes : w.context.scopes.IsSound
  locals : ∀ l ∈ w.locals, l.value.IsCovered fun name =>
    ∃ r ∈ l.reads, r.column.name = name ∧ w.context.scopes.OffersAt name r.level

variable {w w' w'' : Workspace}

namespace Keeps

theorem refl (w : Workspace) : Keeps w w :=
  ⟨.refl _, .refl _, rfl, rfl, rfl⟩

theorem trans (h : Keeps w w') (h' : Keeps w' w'') : Keeps w w'' :=
  ⟨h.scopes.trans h'.scopes, h.reads.trans h'.reads, h'.locals.trans h.locals,
    h'.pending.trans h.pending, h'.frames.trans h.frames⟩

theorem knows (h : Keeps w w') {name : String} (hname : w.Knows name) : w'.Knows name :=
  hname.mono h.scopes h.reads

/-- What is covered stays covered, as levels only gain names. -/
theorem allCovered (h : Keeps w w') {nodes : List Node} (hnodes : AllCovered w.Knows nodes) :
    AllCovered w'.Knows nodes :=
  fun n hn => (hnodes n hn).mono fun _ => h.knows

/-- Only counters have changed. -/
theorem counters (w : Workspace) (counters : Counters) :
    Keeps w { w with context := { w.context with counters } } :=
  ⟨.refl _, .refl _, rfl, rfl, rfl⟩

end Keeps

/-- A bound value looks at the symbols of the open scopes only. -/
theorem IsSound.of_levels (h : w.IsSound) (hscopes : w'.context.scopes.IsSound)
    (hlocals : w'.locals = w.locals)
    (hlevels : ∀ scope ∈ w.context.scopes.all, ∃ scope' ∈ w'.context.scopes.all,
      scope'.level = scope.level ∧ scope.symbols ⊆ scope'.symbols) : w'.IsSound where
  scopes := hscopes
  locals := by
    rw [hlocals]
    intro l hl
    refine (h.locals l hl).mono ?_
    rintro name ⟨r, hr, hname, hoffered⟩
    exact ⟨r, hr, hname, hoffered.of_levels hlevels⟩

/-- Levels keep what they hold, so a sound workspace stays one. -/
theorem Keeps.isSound (h : Keeps w w') (hw : w.IsSound) : w'.IsSound :=
  hw.of_levels (hw.scopes.widens h.scopes) h.locals h.scopes.same_levels

end Workspace

namespace Build

open Workspace

variable {α β : Type} {w w' : Workspace}

-- ====================================================== composition

/-- What the trees made read has been noted, given that this is so for
the given trees. -/
abbrev Noted (w : Workspace) (given : List Node) (w' : Workspace) (made : List Node) : Prop :=
  w.IsSound → w.Keeps w' ∧ (AllCovered w.Knows given → AllCovered w'.Knows made)

/-- Levels only gain names, so what is noted early stays noted. -/
theorem noted_composes : Composes Noted where
  refl w _ _ := ⟨.refl w, id⟩
  trans := by
    intro w w₁ w' given ms made h h' hw
    obtain ⟨hkeeps, hcovered⟩ := h hw
    obtain ⟨hkeeps', hcovered'⟩ := h' (hkeeps.isSound hw)
    exact ⟨hkeeps.trans hkeeps', fun hg => hcovered' (hcovered hg)⟩
  frame := by
    intro others w w' given made h hw
    obtain ⟨hkeeps, hcovered⟩ := h hw
    refine ⟨hkeeps, fun hg => ?_⟩
    obtain ⟨hothers, hgiven⟩ := Node.allCovered_append.mp hg
    exact Node.allCovered_append.mpr ⟨hkeeps.allCovered hothers, hcovered hgiven⟩

/-- The step notes what the trees it makes read. -/
abbrev Notes (given : List Node) (step : Build α) (made : α → List Node) : Prop :=
  Relates Noted given step made

namespace Notes

variable {given : List Node} {step : Build α} {made : α → List Node}

/-- Plain nodes are put around the given trees. -/
theorem wrap {a : α} (h : Node.Wrap given (made a)) : Notes given (Pure.pure a) made := by
  intro w b w' hb _
  obtain ⟨rfl, rfl⟩ := pure_eq_ok.mp hb
  exact ⟨.refl w, h.allCovered⟩

/-- Nothing is noted where every read was there before. -/
theorem pure {a : α} (h : ∀ known, AllCovered known given → AllCovered known (made a)) :
    Notes given (pure a) made := by
  intro w b w' hb _
  obtain ⟨rfl, rfl⟩ := pure_eq_ok.mp hb
  exact ⟨.refl w, h w.Knows⟩

/-- A node made from given ones. -/
theorem node {n : Node} (h : ∀ known, AllCovered known given → n.IsCovered known) :
    Notes given (Pure.pure n) fun n => [n] :=
  pure fun known hg => Node.allCovered_cons.mpr ⟨h known hg, Node.allCovered_nil⟩

theorem bind {f : α → Build β} {m : α → List Node} {made : β → List Node} (h : Notes given step m)
    (hf : ∀ a, Notes (m a) (f a) made) : Notes given (step >>= f) made :=
  Relates.bind (R := Noted) noted_composes.trans h hf

/-- Trees that a step does not look at stay covered. -/
theorem frame_left (h : Notes given step made) (others : List Node) :
    Notes (others ++ given) step fun a => others ++ made a :=
  Relates.frame_left noted_composes h others

/-- Trees that a step does not look at, on the other side. -/
theorem frame_right (h : Notes given step made) (others : List Node) :
    Notes (given ++ others) step fun a => made a ++ others := by
  intro w a w' ha hw
  obtain ⟨hkeeps, hcovered⟩ := h w a w' ha hw
  refine ⟨hkeeps, fun hg => ?_⟩
  obtain ⟨hgiven, hothers⟩ := Node.allCovered_append.mp hg
  exact Node.allCovered_append.mpr ⟨hcovered hgiven, hkeeps.allCovered hothers⟩

/-- One step after another, and the trees of both. -/
theorem append {γ : Type} {rest : Build β} {f : α → β → γ} {m : α → List Node}
    {m' : β → List Node} {made : γ → List Node} (h : Notes [] step m)
    (h' : Notes [] rest m') (hmade : ∀ a b, made (f a b) = m a ++ m' b) :
    Notes [] (step >>= fun a => rest >>= fun b => Pure.pure (f a b)) made :=
  Relates.append noted_composes h h' hmade

end Notes

-- ============================================================ calls

/-- A change of counters notes nothing. -/
theorem Tallies.notes {step : Build α} (h : Tallies step) (given : List Node) :
    Notes given step fun _ => given := by
  intro w a w' ha _
  obtain ⟨counters, rfl⟩ := h w a w' ha
  exact ⟨.counters w counters, (Keeps.counters w counters).allCovered⟩

/-- A node that is put around the given trees after a count reads what they
read. -/
theorem Tallies.notes_node {step : Build α} (h : Tallies step) {given : List Node} {f : α → Node}
    (hoperands : ∀ a, (f a).operands = given) (hown : ∀ a, (f a).ownReads = [])
    (hbound : ∀ a, (f a).bound = []) (hsegments : ∀ a, (f a).segments = []) :
    Notes given (step >>= fun a => pure (f a)) fun n => [n] := by
  refine (h.notes given).bind fun a => .node fun known hg => ?_
  rw [← hoperands a] at hg
  exact Node.isCovered_of_operands (hown a) (hbound a) (hsegments a) hg

/-- A builtin reads what its operands read. -/
theorem builtin_notes (link : Signature) (args : List Node) (type : DataType) :
    Notes args (noteWindow link >>= fun _ => allocateFor link >>= fun slot =>
      pure (.call link args type slot)) fun n => [n] :=
  ((noteWindow_tallies link).notes args).bind fun _ =>
    (allocateFor_tallies link).notes_node (fun _ => rfl) (fun _ => rfl) (fun _ => rfl) fun _ => rfl

/-- A function reads what its operands read, apart from the reference to
itself. -/
theorem function_notes (link : Signature) (args : List Node) (type : DataType) :
    Notes args (allocateFor link >>= fun slot => pure (.function link args type slot))
      fun n => [n] :=
  (allocateFor_tallies link).notes_node (fun _ => rfl) (fun _ => rfl) (fun _ => rfl) fun _ => rfl

/-- A fold reads what its operand reads. -/
theorem fold_notes (op : String) (arg : Node) (type : DataType) :
    Notes [arg] (allocate "fold" 1 >>= fun slot => pure (.fold op slot arg type)) fun n => [n] :=
  (allocate_tallies "fold" 1).notes_node (fun _ => rfl) (fun _ => rfl) (fun _ => rfl) fun _ => rfl

/-- Copying changes slots and nothing that is read. -/
theorem relocate_covered {n n' : Node} (h : relocate n w = .ok n' w') :
    (∃ counters, w' = { w with context := { w.context with counters } }) ∧
      ∀ known, n.IsCovered known → n'.IsCovered known := by
  obtain ⟨hcounters, -, hcovered⟩ := relocate_related (R := fun m m' =>
    m'.dataType = m.dataType ∧ ∀ known, m.IsCovered known → m'.IsCovered known)
    (fun _ _ hbare hoperands => ⟨Node.dataType_eq_of_bare hbare (hoperands.imp fun _ _ h => h.1),
      fun _ => Node.isCovered_of_copy hbare hoperands⟩) h
  exact ⟨hcounters, hcovered⟩

-- ============================================================= names

/-- A use of a block binding notes again what the bound value reads. -/
theorem useLocal_notes (name : String) (slot : Nat) :
    Notes [] (useLocal name slot) fun n => [n] := by
  intro w n w' h hw
  obtain ⟨bound, copy, hbound, rfl, hcopy⟩ := useLocal_steps h
  have hreads : w.Keeps (w.reread bound) ∧ bound.value.IsCovered (w.reread bound).Knows := by
    refine ⟨⟨.foldl_record _ _, .foldl_record _ _, rfl, rfl, rfl⟩, ?_⟩
    refine (hw.locals bound (List.mem_of_getElem? hbound)).mono ?_
    rintro _ ⟨r, hr, rfl, hoffered⟩
    exact Scopes.notes_foldl_record hr hoffered
  obtain ⟨⟨counters, rfl⟩, hsame⟩ := relocate_covered hcopy
  refine ⟨hreads.1.trans (.counters _ counters), fun _ => ?_⟩
  refine List.forall_mem_singleton.mpr (Node.isCovered_of_operands rfl rfl rfl ?_)
  exact List.forall_mem_singleton.mpr (hsame _ hreads.2)

/-- A use of a symbol that was found and, if it is a column, noted. -/
theorem useSymbol_eq_ok {symbol : Symbol} {n : Node} (h : useSymbol symbol w = .ok n w')
    (hw : w.IsSound) (hknown : symbol.kind.isLookup = true → w.Knows symbol.name) :
    w.Keeps w' ∧ AllCovered w'.Knows [n] := by
  have hvariable (source : VariableSource) (hsource : source.isLookup = true →
      symbol.kind.isLookup = true) (hpure : (pure (.variable symbol.name source symbol.type) :
        Build Node) w = .ok n w') : w.Keeps w' ∧ AllCovered w'.Knows [n] := by
    cases hpure
    refine ⟨.refl w, Node.allCovered_cons.mpr ⟨?_, Node.allCovered_nil⟩⟩
    exact Node.isCovered_variable fun hlookup => hknown (hsource hlookup)
  unfold useSymbol at h
  generalize hkind : symbol.kind = kind at h
  cases kind with
  | field => exact hvariable .field (fun _ => by rw [hkind]; rfl) h
  | parameter => exact hvariable .parameter (fun _ => by rw [hkind]; rfl) h
  | component => exact hvariable .component (fun _ => by rw [hkind]; rfl) h
  | catalog => exact hvariable .catalog (fun hlookup => nomatch hlookup) h
  | bound slot =>
      obtain ⟨hkeeps, hcovered⟩ := useLocal_notes _ slot w n w' h hw
      exact ⟨hkeeps, hcovered Node.allCovered_nil⟩
  | operator => exact absurd h fail_ne_ok
  | deferred => exact absurd h fail_ne_ok
  | userType => exact absurd h fail_ne_ok

/-- What the catalog holds is not read from a row. -/
theorem useGlobal_notes (catalog : Catalog) (name : String) :
    Notes [] (useGlobal catalog name) fun n => [n] := by
  have hvariable (source : VariableSource) (type : DataType) (hsource : source.isLookup = false) :
      Notes [] (pure (.variable name source type)) fun n => [n] := by
    refine .node fun _ _ => Node.isCovered_variable fun hlookup => ?_
    rw [hsource] at hlookup
    cases hlookup
  unfold useGlobal
  split
  · split
    · exact hvariable .catalog _ rfl
    · exact hvariable .reference _ rfl
    · exact .fail _
  · split
    · exact .fail _
    · exact .fail _

/-- Finding a name notes it, if it is that of a column. -/
theorem resolve_eq_ok {name : String} {found : Option Symbol} (h : resolve name w = .ok found w')
    (hw : w.IsSound) :
    w.Keeps w' ∧ ∀ symbol, found = some symbol → symbol.kind.isLookup = true →
      symbol.name = name ∧ w'.Knows name := by
  cases h
  exact ⟨⟨.resolve _ name, .resolve _ name, rfl, rfl, rfl⟩,
    fun symbol hfound hlookup => hw.scopes.resolve hfound hlookup⟩

/-- A name that is read from a row is noted by the lookup itself. -/
theorem useName_notes (catalog : Catalog) (name : String) :
    Notes [] (useName catalog name) fun n => [n] := by
  intro w n w' h hw
  obtain ⟨found, w₁, hresolve, h⟩ := bind_eq_ok.mp h
  obtain ⟨hkeeps, hnoted⟩ := resolve_eq_ok hresolve hw
  have hw₁ := hkeeps.isSound hw
  have huse : w₁.Keeps w' ∧ AllCovered w'.Knows [n] := by
    cases found with
    | some symbol =>
        refine useSymbol_eq_ok h hw₁ fun hlookup => ?_
        obtain ⟨hname, hknown⟩ := hnoted symbol rfl hlookup
        rwa [hname]
    | none =>
        obtain ⟨hkeeps', hcovered⟩ := useGlobal_notes catalog name w₁ n w' h hw₁
        exact ⟨hkeeps', hcovered Node.allCovered_nil⟩
  exact ⟨hkeeps.trans huse.1, fun _ => huse.2⟩

/-- The row being looked at loads nothing by name. -/
theorem currentRow_notes : Notes [] currentRow fun n => [n] := by
  have hreads (names : List String) : Notes [] (forIn names PUnit.unit fun name _ =>
      discard (resolve name) >>= fun _ => pure (ForInStep.yield PUnit.unit)) fun _ => [] := by
    induction names with
    | nil => exact .pure fun _ => id
    | cons name names ih =>
        rw [List.forIn_cons]
        have hread : Notes [] (discard (resolve name)) fun _ => [] := by
          intro w u w' h hw
          obtain ⟨found, h⟩ := discard_eq_ok.mp h
          exact ⟨(resolve_eq_ok h hw).1, fun _ => Node.allCovered_nil⟩
        refine (hread.bind fun _ => .pure fun _ => id).bind (m := fun _ => []) fun next => ?_
        cases next with
        | done u => exact .pure fun _ => id
        | yield u => exact ih
  refine .get_bind fun w => ?_
  split
  · exact .fail _
  · exact (hreads _).bind fun _ => .node fun _ _ => Node.isCovered_currentRow

end Build

end RelQuery
