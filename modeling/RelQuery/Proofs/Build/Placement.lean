/-
Current rows and ordering keys in whole statements.

What remains of the walk are field lists. The scope of a list offers the
columns of its base, or none if the list continues an ordering; a field
has a scope of its own inside it, which offers the columns of the base in
either case. So fields stand in the rows of the base, as predicates do,
and the scope of the list makes no difference to them. It does to the
keys, and they alone are found there.

A statement begins in surroundings that are empty or, in a definition,
hold the parameters. Every node and every segment of it has its place
(`Statement.Places`, `Statement.PlacesSegment`), and the results are
stated of all of them.
-/
import RelQuery.Proofs.Build.Sight

namespace RelQuery

open Workspace
open Node (Wrap EverywhereIn Heeds)

/-- A load stands where its one column does. -/
theorem Segment.IsLoad.minds {Γ : Surroundings} {s : Segment} (h : s.IsLoad) : s.Minds Γ where
  lists := h.lists
  body := by
    obtain ⟨name, type, hbody, -, -⟩ := h
    rw [hbody]
    exact Node.everywhereIn_of_operands rfl rfl rfl (Node.heeds_of_segments rfl)
      fun _ h => absurd h List.not_mem_nil

namespace Build

variable {catalog : Catalog} {w w' w₀ w₁ : Workspace} {Γ : Surroundings} {heading outer : Heading}

-- ========================================================== entries

theorem DrawsSegments.reflects {segments : List Segment} (h : DrawsSegments w segments w')
    (hΓ : w.Reflects Γ) : w'.Reflects Γ :=
  hΓ.widens h.locals h.scopes.widens.1

/-- The innermost list runs over rows with the heading, and its own
scope offers no other columns. -/
structure RunsIn (w : Workspace) (Γ : Surroundings) (heading : Heading) : Prop where
  frame : ∃ f rest, w.frames = f :: rest ∧ f.base.heading? = some heading
  scope : ∃ outer : Heading, outer.names ⊆ heading.names ∧ w.Reflects (Γ.row outer)

/-- The fields of a list mind the rows of its base. -/
def MindsFields (w : Workspace) (segments : List Segment) (w' : Workspace) : Prop :=
  w.IsSeeded → DrawsSegments w segments w' ∧
    ∀ Γ heading, RunsIn w Γ heading → ∀ s ∈ segments, s.Minds (Γ.row heading)

/-- A computed field minds the rows of the base: its own scope offers
them, and the scope of the list adds nothing. -/
theorem computedField_minds {name : String} {mark : Nat} {value : Expr} {segment : Segment}
    (h : Relates Minds [] (expression catalog false value) fun n => [n]) (hw : w.IsSeeded)
    (hrun : RunsIn w Γ heading) (hs : computedField catalog name mark value w = .ok segment w') :
    segment.Minds (Γ.row heading) ∧ w'.frames = w.frames := by
  obtain ⟨u, w₁, hbegin, hs⟩ := bind_eq_ok.mp hs
  obtain ⟨node, w₂, hnode, hend⟩ := bind_eq_ok.mp hs
  obtain ⟨captured, hleave, rfl⟩ := endField_eq_ok (located_eq_ok.mp hend)
  obtain ⟨f, rest, hframes, rfl⟩ := beginField_eq_ok hbegin
  obtain ⟨⟨g, rest', hframes', hheading⟩, outer, houter, hΓ⟩ := hrun
  rw [hframes] at hframes'
  obtain ⟨rfl, -⟩ := List.cons.inj hframes'
  have hw₁ : IsSeeded ((w.onCounter .resetField).opened f.base .inherit) :=
    ⟨hw.scopes.enter_ofType f.base, hw.locals⟩
  have hΓ₀ : (w.onCounter .resetField).Reflects (Γ.row outer) := hΓ.widens rfl (.refl _)
  have hΓ₁ : ((w.onCounter .resetField).opened f.base .inherit).Reflects (Γ.row heading) :=
    (hΓ₀.opened hheading .inherit).congr rfl (Surroundings.sense?_row_row houter).symm
  obtain ⟨hdraws, haccounts⟩ := h _ node w₂ hnode hw₁
  have haccounts := haccounts _ hΓ₁
  have hminds := level_minds (w := w) rfl (Scopes.admits_ofType _ _) (lookup_ofType _ _)
    (by rw [Scope.heading_ofType, hheading]; rfl) hw₁ hdraws haccounts hleave
  obtain ⟨slots, w₃, hgrows, -, -, rfl⟩ := expression_builds catalog false value _ node w₂ hnode
  exact ⟨hminds name _ _, (leave_closes hleave).frames.trans hgrows.frames⟩

/-- A field stands in the row around it, and the others after it do as
well. -/
theorem mindsFields_cons {name : String} {mark : Nat} {value : Expr} {segment : Segment}
    {segments : List Segment}
    (h : Relates Minds [] (expression catalog false value) fun n => [n])
    (hs : computedField catalog name mark value w = .ok segment w₁)
    (hothers : MindsFields w₁ segments w') : MindsFields w (segment :: segments) w' := by
  intro hw
  have hdraws := computedField_draws h.follows hw hs
  obtain ⟨hdraws', hminds'⟩ := hothers (hdraws.isSeeded hw)
  refine ⟨hdraws.append hdraws', fun Γ heading hrun => ?_⟩
  obtain ⟨hminds, hframes⟩ := computedField_minds h hw hrun hs
  obtain ⟨outer, houter, hΓ⟩ := hrun.scope
  have hrun' : RunsIn w₁ Γ heading :=
    ⟨by rw [hframes]; exact hrun.frame, outer, houter, hdraws.reflects hΓ⟩
  exact List.forall_mem_cons.mpr ⟨hminds, hminds' Γ heading hrun'⟩

-- ============================================================= keys

/-- A key names a column of the base, or one around it where the scope
of the list does not offer it. -/
theorem orderKey_over {node : Node} {name : String} {descending grouped : Bool}
    {segment : Segment} (hΓ : w.Reflects (Γ.row outer))
    (houter : outer = node.heading ∨ node.isOrder = true ∧ outer = [])
    (h : orderKey name descending grouped w = .ok segment w') : segment.IsKeyOver Γ node := by
  obtain ⟨found, w₁, hresolve, h⟩ := bind_eq_ok.mp h
  obtain ⟨rfl, rfl⟩ := resolve_reads hresolve
  -- a key must be found, and it must be a column
  cases hfind : w.context.scopes.find? name with
  | none =>
      rw [hfind] at h
      exact absurd h fail_ne_ok
  | some symbol =>
      rw [hfind] at h
      dsimp only at h
      split at h
      · rename_i hkind
        -- a column that is found is sensed in the row of the list
        have hkind : symbol.kind = .field ∨ symbol.kind = .component :=
          (Bool.or_eq_true_iff.mp hkind).imp of_decide_eq_true of_decide_eq_true
        have hsense := hΓ.sense_of_find? hfind hkind
        obtain rfl := Scopes.find?_name hfind
        cases h
        refine ⟨⟨symbol.name, symbol.type⟩, ⟨rfl, rfl, rfl⟩, ?_⟩
        show Heading.get? node.heading symbol.name = _ ∨ Γ.sense? symbol.name = _ ∧
          (Heading.get? node.heading symbol.name = none ∨ _)
        rw [Surroundings.sense?] at hsense
        -- that is the row of the base, or there is none and the key looks further out
        rcases houter with rfl | ⟨horder, rfl⟩
        · cases hget : Heading.get? node.heading symbol.name with
          | some c =>
              rw [hget] at hsense
              exact .inl (congrArg some (Sense.column.inj (Option.some.inj hsense)))
          | none =>
              rw [hget] at hsense
              exact .inr ⟨hsense, .inl rfl⟩
        · exact .inr ⟨hsense, .inr horder⟩
      · exact absurd h fail_ne_ok

/-- A key is a load of a column that is found in the level of the list. -/
theorem orderKeys_over {node : Node} {keys : List OrderKey} {segments : List Segment}
    (hΓ : w.Reflects (Γ.row outer))
    (houter : outer = node.heading ∨ node.isOrder = true ∧ outer = [])
    (h : orderKeys keys w = .ok segments w') : ∀ s ∈ segments, s.IsKeyOver Γ node := by
  induction keys generalizing w segments with
  | nil =>
      cases h
      exact fun _ hs => absurd hs List.not_mem_nil
  | cons key rest ih =>
      obtain ⟨segment, others, w₁, hkey, hrest, rfl⟩ := orderKeys_steps h
      exact List.forall_mem_cons.mpr
        ⟨orderKey_over hΓ houter hkey, ih ((orderKey_draws hkey).reflects hΓ) hrest⟩

-- ============================================================ lists

/-- A list keeps its keys, or has none. -/
theorem fieldNode_keys (base : Node) (heading output : Heading) (type : DataType)
    (order : List Segment) (items : List FieldItem) (accums : Nat) :
    (fieldNode base heading output type order items accums).keys ⊆ order := by
  unfold fieldNode
  split
  · exact List.Subset.refl order
  · split
    · exact List.nil_subset _
    · exact List.nil_subset _
    · exact List.Subset.refl order

/-- The type that the scope of a list is for: that of the base, or what
the list before it has kept. -/
def levelType (isOpen : Bool) (node : Node) : DataType :=
  if isOpen then node.keptType else node.dataType

/-- A list stands in a level for the columns of its base, or in one that an
ordering has left without columns. -/
theorem heading_levelType (isOpen : Bool) {node : Node}
    (h : node.dataType.heading? = some heading) :
    ∃ outer, (levelType isOpen node).heading? = some outer ∧ outer.names ⊆ heading.names ∧
      (outer = node.heading ∨ node.isOrder = true ∧ outer = []) := by
  have hown : node.heading = heading := node.heading_eq h
  unfold levelType Node.keptType
  split
  · split
    · rename_i horder
      refine ⟨[], ?_, List.nil_subset _, .inr ⟨horder, rfl⟩⟩
      split
      · rfl
      · rfl
    · exact ⟨heading, h, List.Subset.refl _, .inl hown.symm⟩
  · exact ⟨heading, h, List.Subset.refl _, .inl hown.symm⟩

/-- Opened or taken over, a list has a level. -/
theorem list_begins {isOpen keepOpen : Bool} {node n : Node} {l : FieldList}
    (h : list catalog isOpen keepOpen node l (w.kept isOpen node) = .ok n w') :
    (∃ heading, node.dataType.heading? = some heading) ∧
      listBody catalog keepOpen node l (started node l (levelType isOpen node) w) = .ok n w' := by
  have hheading : node.dataType.heading?.isNone = false := by
    unfold list at h
    dsimp only at h
    split at h
    · obtain ⟨u, w₁, hopen, -⟩ := bind_eq_ok.mp h
      exact (chainFields_eq_ok hopen).1
    · obtain ⟨u, w₁, hopen, -⟩ := bind_eq_ok.mp h
      exact (enterFields_eq_ok hopen).1
  refine ⟨Option.isSome_iff_exists.mp (Option.isNone_eq_false_iff.mp hheading), ?_⟩
  cases isOpen with
  | true =>
      rw [Workspace.kept, if_pos rfl, list_taken hheading] at h
      exact h
  | false =>
      rw [Workspace.kept, if_neg Bool.false_ne_true, list_own hheading] at h
      exact h

/-- A list closes its level, and it may be kept for the next one. -/
theorem finishFields_ends {base n : Node} {order : List Segment}
    {entries : List (FieldSpec Segment)} {keepOpen : Bool} {t : DataType} {allBut : Bool}
    {slots : List Nat}
    (h : Widens { w.opened t .enabled with frames := ⟨base.dataType, allBut⟩ :: w.frames } w₁ slots)
    (hn : finishFields base order entries keepOpen w₁ = .ok n w') :
    ∃ captured w₂, leave { w₁ with frames := w₁.frames.tail } = .ok captured w₂ ∧
      w' = w₂.kept keepOpen n ∧ ListOver base order (FieldSpec.computed entries) n ∧
      n.keys ⊆ order := by
  have hkept : SameOutcome (keptEnd keepOpen (finishFields base order entries false w₁))
      (finishFields base order entries keepOpen w₁) := finishFields_kept keepOpen h
  rw [hn] at hkept
  cases hclosed : finishFields base order entries false w₁ with
  | error f w₂ =>
      rw [hclosed] at hkept
      cases hkept
  | ok made w₂ =>
      rw [hclosed] at hkept
      cases hkept
      obtain ⟨⟨captured, w₃, hleave, rfl⟩, hover⟩ := finishFields_leaves h hclosed
      obtain ⟨f, rest, items, output, c, -, -, -, -, rfl⟩ := finishFields_steps hn
      exact ⟨captured, w₂, hleave, rfl, hover, fieldNode_keys ..⟩

/-- The node of a list heeds its surroundings if its segments mind the
rows of the base. -/
theorem list_heeds {base n : Node} {order computed : List Segment}
    (hover : ListOver base order computed n) (hkeys : n.keys ⊆ order)
    (horder : ∀ s ∈ order, s.IsLoad ∧ s.IsKeyOver Γ base)
    (hcomputed : ∀ s ∈ computed, s.Minds (Γ.row base.heading))
    (hbase : base.EverywhereIn Heeds Γ) : n.EverywhereIn Heeds Γ := by
  have hminds : ∀ s ∈ n.segments, s.Minds (Γ.row base.heading) := by
    intro s hs
    rcases hover.segments s hs with hs | hs | hs
    · exact (horder s hs).1.minds
    · exact hcomputed s hs
    · exact hs.minds
  exact Node.heeds_over hover.operands (fun _ hs => hover.isList.ground?_isSome hs)
    hover.isList.bound_eq hover.isList.inside_eq hminds (fun k hk => (horder k (hkeys hk)).2) hbase

/-- One list over a base. -/
theorem list_minds {isOpen keepOpen : Bool} {node n : Node} {l : FieldList}
    (hentries : RelatesFields catalog MindsFields l.entries) (hw : w.IsSeeded)
    (h : list catalog isOpen keepOpen node l (w.kept isOpen node) = .ok n w') :
    ∃ w₁, Draws w [node] w₁ [n] ∧ (∀ Γ, w.Reflects Γ → Accounts Γ w [node] w₁ [n]) ∧
      w' = w₁.kept keepOpen n := by
  -- the list is laid out as its keys, its entries and its end
  obtain ⟨⟨heading, hheading⟩, h⟩ := list_begins h
  obtain ⟨keys, w₂, hkeys, h⟩ := bind_eq_ok.mp h
  obtain ⟨fields, w₃, hfields, hfinish⟩ := bind_eq_ok.mp h
  obtain ⟨hgrows, -⟩ := orderKeys_eq_ok hkeys
  obtain ⟨slots, hwidens, -, -⟩ := fieldEntries_lists catalog l.entries w₂ fields w₃ hfields
  obtain ⟨captured, w₄, hleave, rfl, hover, hsub⟩ :=
    finishFields_ends (hgrows.toWidens.trans hwidens) hfinish
  have hopened : (started node l (levelType isOpen node) w).IsSeeded :=
    ⟨hw.scopes.enter_ofType _, hw.locals⟩
  have horder := orderKeys_draws hkeys
  obtain ⟨hcomputed, hminds⟩ := hentries w₂ fields w₃ hfields (horder.isSeeded hopened)
  -- what it draws is settled; this adds what it shows and what its segments heed
  refine ⟨w₄, list_draws (horder.append hcomputed) hleave hover, fun Γ hΓ => ?_, rfl⟩
  obtain ⟨outer, houter, hsubset, hscope⟩ := heading_levelType isOpen hheading
  have hΓ₁ : (started node l (levelType isOpen node) w).Reflects (Γ.row outer) :=
    (hΓ.opened houter .enabled).widens rfl (.refl _)
  have hframes : w₂.frames = ⟨node.dataType, l.allBut⟩ :: w.frames := hgrows.frames
  have hcomputed' := hminds Γ heading
    -- keys and entries stand in the row of the base
    ⟨⟨_, _, hframes, hheading⟩, outer, hsubset, horder.reflects hΓ₁⟩
  rw [← node.heading_eq hheading] at hcomputed'
  have hload := orderKeys_load hkeys
  have hover' := orderKeys_over hΓ₁ hscope hkeys
  rw [← hover.operands]
  refine .node hover.isList.ne_currentRow hover.isList.inside_eq fun hbase => ?_
  rw [hover.operands] at hbase
  exact list_heeds hover hsub (fun s hs => ⟨hload s hs, hover' s hs⟩) hcomputed'
    (hbase node List.mem_cons_self)

/-- The expression accounts for what it makes around the level that it
may leave open. -/
def BuildsMind (catalog : Catalog) (keepOpen : Bool) (e : Expr) : Prop :=
  ∀ w n w', expression catalog keepOpen e w = .ok n w' → w.IsSeeded →
    ∃ w₁, Draws w [] w₁ [n] ∧ (∀ Γ, w.Reflects Γ → Accounts Γ w [] w₁ [n]) ∧
      w' = w₁.kept (keepOpen && e.isFields) n

/-- Keys and fields of a list stand in the level that the list has opened. -/
theorem fields_mind {keepOpen : Bool} {mark : Nat} {base : Expr} {allBut : Bool}
    {order : List OrderKey} {entries : List FieldEntry} (hbase : BuildsMind catalog true base)
    (hentries : RelatesFields catalog MindsFields entries) :
    BuildsMind catalog keepOpen (.fields mark base ⟨allBut, order, entries⟩) := by
  intro w n w' hn hw
  rw [expression_fields, located_eq_ok] at hn
  obtain ⟨node, w₁, hnode, hlist⟩ := bind_eq_ok.mp hn
  obtain ⟨w₀, hdraws, haccounts, rfl⟩ := hbase w node w₁ hnode hw
  rw [Bool.true_and] at hlist
  obtain ⟨w₂, hdraws', haccounts', rfl⟩ := list_minds hentries (hdraws.isSeeded hw) hlist
  rw [Expr.isFields, Bool.and_true]
  refine ⟨w₂, hdraws.trans hdraws', fun Γ hΓ => ?_, rfl⟩
  exact .trans hdraws hdraws' (haccounts Γ hΓ) (haccounts' Γ (hdraws.reflects hΓ))

/-- Surroundings are minded through every expression. -/
def sightDiscipline (catalog : Catalog) : Discipline catalog where
  Makes := Relates Minds
  Builds := BuildsMind catalog
  Binds := BindsMind catalog
  Lists := RelatesFields catalog MindsFields
  pure := fun h w a w' ha _ => by
    obtain ⟨rfl, rfl⟩ := pure_eq_ok.mp ha
    exact ⟨.wrap w h, fun _ _ => .wrap w h⟩
  throw := Relates.throw
  bind := Relates.bind fun h h' hw => by
    obtain ⟨hdraws, haccounts⟩ := h hw
    obtain ⟨hdraws', haccounts'⟩ := h' (hdraws.isSeeded hw)
    exact ⟨hdraws.trans hdraws', fun Γ hΓ =>
      .trans hdraws hdraws' (haccounts Γ hΓ) (haccounts' Γ (hdraws.reflects hΓ))⟩
  frame := fun others h w a w' ha hw =>
    ⟨(h w a w' ha hw).1.frame others, fun Γ hΓ => ((h w a w' ha hw).2 Γ hΓ).frame others⟩
  located := fun _ => Relates.located
  uncallable := fun _ => Relates.uncallable
  builtin := builtin_minds
  function := function_minds
  fold := fold_minds
  name := useName_minds catalog
  currentRow := currentRow_minds
  restrict := restrict_minds
  binds_nil := fun w u w' s scope h hscopes _ hblock hw => by
    cases h
    exact ⟨s, scope, [], ⟨hscopes, hblock, .refl s, (List.append_nil _).symm, hw⟩,
      fun _ hΓ => ⟨hΓ, fun _ h => absurd h List.not_mem_nil⟩⟩
  binds_cons := bindsMind_cons
  block := block_minds
  lists_nil := .nil fun w _ => ⟨.nil w, fun _ _ _ _ h => absurd h List.not_mem_nil⟩
  lists_plain := .plain
  lists_computed := fun h hrest => hrest.computed (mindsFields_cons h)
  closed := fun {keepOpen e} hfields h w n w' hn hw => by
    rw [hfields, Bool.and_false]
    exact ⟨w', (h w n w' hn hw).1, (h w n w' hn hw).2, rfl⟩
  makes := fun h w n w' hn hw => by
    obtain ⟨w₁, hdraws, haccounts, rfl⟩ := h w n w' hn hw
    exact ⟨hdraws, haccounts⟩
  fields := fields_mind

end Build

-- ================================================== whole statements

namespace Statement

/-- What stands around the tree of a statement. -/
def around : Statement → Surroundings
  | .define _ link _ => .parameters .statement link.args
  | _ => .statement

/-- The node stands there in the statement. -/
def Places (s : Statement) (Δ : Surroundings) (n : Node) : Prop :=
  ∃ root ∈ s.root?, Node.StandsIn s.around root Δ n

/-- The body of the segment stands there in the statement. -/
inductive PlacesSegment (s : Statement) : Surroundings → Segment → Prop
  | node {Δ : Surroundings} {n : Node} {segment : Segment} (h : s.Places Δ n)
    (hsegment : segment ∈ n.segments) : PlacesSegment s (n.rowAround Δ) segment
  | body {name : String} {link : Signature} {segment : Segment}
    (h : s = .define name link segment) : PlacesSegment s s.around segment

variable {s : Statement}

/-- Every node of a statement has a place. -/
theorem mem_nodes_iff_places {n : Node} :
    (∃ root ∈ s.root?, n ∈ root.nodes) ↔ ∃ Δ, s.Places Δ n := by
  constructor
  · rintro ⟨root, hroot, hn⟩
    obtain ⟨Δ, h⟩ := (Node.mem_nodes_iff_standsIn (Γ := s.around)).mp hn
    exact ⟨Δ, root, hroot, h⟩
  · rintro ⟨Δ, root, hroot, h⟩
    exact ⟨root, hroot, Node.mem_nodes_iff_standsIn.mpr ⟨Δ, h⟩⟩

/-- So has every segment. -/
theorem places_of_mem_segments {segment : Segment} (h : segment ∈ s.segments) :
    ∃ Δ, s.PlacesSegment Δ segment := by
  refine Statement.forall_segments (P := fun segment => ∃ Δ, s.PlacesSegment Δ segment) ?_ ?_
    segment h
  · intro root hroot n hn segment hsegment
    obtain ⟨Δ, hplaces⟩ := mem_nodes_iff_places.mp ⟨root, hroot, hn⟩
    exact ⟨n.rowAround Δ, .node hplaces hsegment⟩
  · exact fun name link body hs => ⟨s.around, .body hs⟩

end Statement

namespace Build

variable {catalog : Catalog} {w w' : Workspace} {s : Statement}

/-- Statements heed their surroundings, and so do definitions. -/
theorem statement_heeds {sentence : Sentence} (hw : w.IsSeeded) (hΓ : w.Reflects .statement)
    (h : statement catalog sentence w = .ok s w') :
    (∀ root ∈ s.root?, root.EverywhereIn Heeds s.around) ∧
      ∀ name link body, s = .define name link body → body.Lists s.around := by
  -- what is known of any expression that is built, wherever it stands
  have hbuilt {e : Expr} {node : Node} {w w₁ : Workspace} {Γ : Surroundings} (hw : w.IsSeeded)
      (hΓ : w.Reflects Γ) (hnode : expression catalog false e w = .ok node w₁) :
      Draws w [] w₁ [node] ∧ Accounts Γ w [] w₁ [node] ∧ node.EverywhereIn Heeds Γ := by
    obtain ⟨hdraws, haccounts⟩ := (sightDiscipline catalog).expression e w node w₁ hnode hw
    have haccounts := haccounts Γ hΓ
    exact ⟨hdraws, haccounts,
      haccounts.heeds (fun _ h => absurd h List.not_mem_nil) node List.mem_cons_self⟩
  rcases statement_cases h with ⟨e, node, hnode, rfl⟩ | ⟨e, node, name, w₁, hnode, hs⟩ |
    ⟨e, mark, name, params, returns, hs⟩ | ⟨user, rfl, rfl⟩
  · obtain ⟨-, -, hheeds⟩ := hbuilt hw hΓ hnode
    refine ⟨?_, fun _ _ _ hs => nomatch hs⟩
    rintro root ⟨⟩
    exact hheeds
  · obtain ⟨-, rfl⟩ := assign_looks catalog name node w₁ s w' hs
    obtain ⟨-, -, hheeds⟩ := hbuilt hw hΓ hnode
    refine ⟨?_, fun _ _ _ hs => nomatch hs⟩
    rintro root ⟨⟩
    exact hheeds
  -- a definition is built in the scope of its parameters
  · obtain ⟨body, w₂, captured, link, hbody, hleave, hargs, -, rfl⟩ := definition_steps hs
    have hadmits := Scopes.admits_seeded w.context.scopes .parameters params .parameter
    have hw₁ : IsSeeded (w.entered _ .enabled) :=
      ⟨hw.scopes.enter hadmits (Scope.isSeeded_seeded _ _ _ _), hw.locals⟩
    obtain ⟨hdraws, haccounts, hheeds⟩ := hbuilt hw₁ (hΓ.parameters params .enabled) hbody
    -- leaving that scope shows that its lookup holds what the body reads
    have hminds := level_minds (w := w) rfl hadmits rfl rfl hw₁ hdraws haccounts hleave
    rw [Statement.around, hargs]
    refine ⟨?_, ?_⟩
    · rintro root ⟨⟩
      exact hheeds
    · rintro _ _ _ ⟨⟩
      exact (hminds _ _ _).lists
  · exact ⟨(fun _ hroot => nomatch hroot), fun _ _ _ hs => nomatch hs⟩

/-- The columns of current rows are listed wherever a segment stands. -/
theorem statement_lists {sentence : Sentence} (hw : w.IsSeeded) (hΓ : w.Reflects .statement)
    (h : statement catalog sentence w = .ok s w') {Δ : Surroundings} {segment : Segment}
    (hplaces : s.PlacesSegment Δ segment) : segment.Lists Δ := by
  obtain ⟨hroot, hbody⟩ := statement_heeds hw hΓ h
  cases hplaces with
  | node hplaces hsegment =>
      obtain ⟨root, hmem, hstands⟩ := hplaces
      exact (hroot root hmem _ _ hstands).rows segment hsegment
  | body hs => exact hbody _ _ _ hs

theorem isSeeded_fresh : IsSeeded { context := .fresh } :=
  ⟨.fresh, fun _ hl => absurd hl List.not_mem_nil⟩

/-- Loading the current row is a read of each of its columns, unless a
block between the row and the load binds the name of the column. A column
that is read is in the header of the segment, which then is not closed;
it may have another type there only if the body copies a value that loads
a column of this name. This holds wherever the segment stands in the
statement, and it does stand somewhere. -/
theorem current_row_is_listed_unless_hidden {sentence : Sentence}
    (h : statement catalog sentence { context := .fresh } = .ok s w') :
    ∀ segment ∈ s.segments, ∀ row, .currentRow (.tuple row) ∈ segment.body.own →
      (∃ Δ Θ, s.PlacesSegment Δ segment ∧
        Node.OwnAt Δ segment.body Θ (.currentRow (.tuple row))) ∧
      ∀ Δ Θ, s.PlacesSegment Δ segment →
        Node.OwnAt Δ segment.body Θ (.currentRow (.tuple row)) → ∀ name ∈ Heading.names row,
          Θ.hides name = true ∨ segment.kind ≠ .closed ∧ ∃ d ∈ segment.lookup, d.name = name ∧
            (Heading.get? row name = some d ∨
              Node.Loads [segment.body] d ∧ Node.Copies [segment.body] name) := by
  intro segment hsegment row hrow
  obtain ⟨Δ, hplaces⟩ := Statement.places_of_mem_segments hsegment
  obtain ⟨Θ, hown⟩ := Node.mem_own_iff_ownAt.mp hrow
  refine ⟨⟨Δ, Θ, hplaces, hown⟩, fun Δ Θ hplaces hown name hname => ?_⟩
  -- what the body shows of the row around it is listed in the header
  have hlists := statement_lists isSeeded_fresh .fresh h hplaces
  cases hseen : Θ.hides name with
  | true => exact .inl rfl
  | false =>
      obtain ⟨c, hget⟩ :=
        Option.ne_none_iff_exists'.mp fun hnone => Heading.get?_eq_none.mp hnone hname
      obtain rfl := Heading.get?_name hget
      -- a name that no block hides is shown
      obtain ⟨d, hd, hsame, hd'⟩ := hlists.shown c ⟨Θ, row, hown, hget, hseen⟩
      refine .inr ⟨fun hclosed => ?_, d, hd, hsame, ?_⟩
      · rw [hlists.closed hclosed] at hd
        exact absurd hd List.not_mem_nil
      · rcases hd' with rfl | hcopied
        · exact .inl hget
        · exact .inr hcopied

/-- A block that binds the name of a column, and loads the current row
with that column. -/
def hiddenColumn : Sentence :=
  .expression (.fields 13 (.emptyTable 0 [("a", .named "number" 5)]) ⟨false, [],
    [.computed "x" 15 (.block 20 [⟨"a", .bool 29 true⟩] (.currentRow 35))]⟩)

/-- The node is a current row with a column of that name. -/
def isRowWith (name : String) : Node → Bool
  | .currentRow (.tuple row) => (Heading.names row).contains name
  | _ => false

/-- A closed segment loads the current row, whose only column a binding
hides. -/
theorem current_row_is_listed_unless_hidden_binding :
    ∃ s w', statement {} hiddenColumn { context := .fresh } = .ok s w' ∧
      ∃ segment ∈ s.segments, segment.kind = .closed ∧ ∃ row,
        .currentRow (.tuple row) ∈ segment.body.own ∧ "a" ∈ Heading.names row ∧
        ∃ Δ Θ, s.PlacesSegment Δ segment ∧
          Node.OwnAt Δ segment.body Θ (.currentRow (.tuple row)) ∧ Θ.hides "a" = true := by
  have hrun : endsWith (fun s _ => s.segments.any fun segment =>
      segment.kind == .closed && segment.body.own.any (isRowWith "a"))
      (statement {} hiddenColumn { context := .fresh }) = true := by decide +kernel
  obtain ⟨s, w', hr, hcheck⟩ := endsWith_eq_true hrun
  obtain ⟨segment, hsegment, hcheck⟩ := List.any_eq_true.mp hcheck
  obtain ⟨hclosed, hrow⟩ := Bool.and_eq_true_iff.mp hcheck
  obtain ⟨n, hn, hrow⟩ := List.any_eq_true.mp hrow
  unfold isRowWith at hrow
  split at hrow
  · rename_i row
    have hname := List.contains_iff_mem.mp hrow
    obtain ⟨⟨Δ, Θ, hplaces, hown⟩, hlisted⟩ :=
      current_row_is_listed_unless_hidden hr segment hsegment row hn
    refine ⟨s, w', hr, segment, hsegment, beq_iff_eq.mp hclosed, row, hn, hname, Δ, Θ, hplaces,
      hown, ?_⟩
    rcases hlisted Δ Θ hplaces hown "a" hname with hhides | ⟨hopen, -⟩
    · exact hhides
    · exact absurd (beq_iff_eq.mp hclosed) hopen
  · cases hrow

/-- Every key of an ordering loads one column, which is a column of what
it orders: the one that has its name. Only if there is no such column, or
if the list continues another one that only orders, the key may load
another column, that which its name means around the list. -/
theorem order_keys_name_base_columns_or_outer {sentence : Sentence}
    (h : statement catalog sentence { context := .fresh } = .ok s w') :
    ∀ root ∈ s.root?, ∀ n ∈ root.nodes, (∃ Δ, s.Places Δ n) ∧
      ∀ Δ, s.Places Δ n → ∀ base ∈ n.ground?, ∀ k ∈ n.keys, ∃ c, k.LoadsKey c ∧
        (Heading.get? base.heading c.name = some c ∨ Δ.sense? c.name = some (.column c) ∧
          (Heading.get? base.heading c.name = none ∨ base.isOrder = true)) := by
  intro root hroot n hn
  refine ⟨Statement.mem_nodes_iff_places.mp ⟨root, hroot, hn⟩, ?_⟩
  rintro Δ ⟨root, hroot, hstands⟩
  exact ((statement_heeds isSeeded_fresh .fresh h).1 root hroot Δ n hstands).keys

/-- A list that orders rows by a column of the row around it. -/
def outerKey : Sentence :=
  .expression (.fields 13 (.emptyTable 0 [("a", .named "number" 5)]) ⟨false, [],
    [.computed "x" 15 (.fields 33 (.emptyTable 20 [("b", .named "number" 25)])
      ⟨false, [⟨"a", false, false, 37⟩], []⟩)]⟩)

/-- The key is no column of what it orders, but one further out. -/
theorem order_keys_name_base_columns_or_outer_key :
    ∃ s w', statement {} outerKey { context := .fresh } = .ok s w' ∧
      ∃ root ∈ s.root?, ∃ n ∈ root.nodes, ∃ base ∈ n.ground?, ∃ k ∈ n.keys,
        Heading.get? base.heading k.name = none ∧
        ∃ Δ c, s.Places Δ n ∧ k.LoadsKey c ∧ Δ.sense? c.name = some (.column c) := by
  have hrun : endsWith (fun s _ => s.root?.toList.any fun root => root.nodes.any fun n =>
      n.ground?.toList.any fun base => n.keys.any fun k =>
        (Heading.get? base.heading k.name).isNone)
      (statement {} outerKey { context := .fresh }) = true := by decide +kernel
  obtain ⟨s, w', hr, hcheck⟩ := endsWith_eq_true hrun
  obtain ⟨root, hroot, hcheck⟩ := List.any_eq_true.mp hcheck
  obtain ⟨n, hn, hcheck⟩ := List.any_eq_true.mp hcheck
  obtain ⟨base, hbase, hcheck⟩ := List.any_eq_true.mp hcheck
  obtain ⟨k, hk, hcheck⟩ := List.any_eq_true.mp hcheck
  rw [Option.mem_toList] at hroot hbase
  have hnone := Option.isNone_iff_eq_none.mp hcheck
  obtain ⟨⟨Δ, hplaces⟩, hkeys⟩ := order_keys_name_base_columns_or_outer hr root hroot n hn
  obtain ⟨c, hloads, hc⟩ := hkeys Δ hplaces base hbase k hk
  refine ⟨s, w', hr, root, hroot, n, hn, base, hbase, k, hk, hnone, Δ, c, hplaces, hloads, ?_⟩
  rcases hc with hown | ⟨houter, -⟩
  · rw [← hloads.name, hnone] at hown
    cases hown
  · exact houter

end Build

end RelQuery
