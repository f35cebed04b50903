/-
Field lists own what was handed out for them.

The level of a list has a counter of its own, which begins at zero.
Each computed field starts the field's count again and lets the total
run on, so a field's count is the number of its own slots, and the
total is that of the slots of all fields. Closing the list takes its
total; the fields may by then stand in another order, but none is lost
and none stands twice.

A list that another one continues is closed all but for its level: the
level is emptied and is the one that the next list would have opened.
-/
import RelQuery.Proofs.Build.Discipline
import RelQuery.Proofs.Build.Level

namespace RelQuery

open Workspace

/-- Segments that own `slots`, each as many as it says. -/
structure Segment.Own (segments : List Segment) (slots : List Nat) : Prop where
  slots : slots.Perm (Node.allSlots (segments.map (·.body)))
  accums : ∀ s ∈ segments, s.accums = s.body.slots.length

namespace Segment.Own

variable {xs ys : List Segment} {slots more : List Nat}

theorem nil : Own [] [] :=
  ⟨.nil, fun _ h => absurd h List.not_mem_nil⟩

theorem singleton {s : Segment} (hslots : slots.Perm s.body.slots)
    (haccums : s.accums = s.body.slots.length) : Own [s] slots :=
  ⟨by simpa using hslots, List.forall_mem_singleton.mpr haccums⟩

/-- Segments of two lists own what both own. -/
theorem append (hx : Own xs slots) (hy : Own ys more) : Own (xs ++ ys) (slots ++ more) where
  slots := by
    rw [List.map_append, Node.allSlots_append]
    exact hx.slots.append hy.slots
  accums := List.forall_mem_append.mpr ⟨hx.accums, hy.accums⟩

theorem perm (h : Own xs slots) (hp : xs.Perm ys) : Own ys slots where
  slots := h.slots.trans (Node.allSlots_perm (hp.map _))
  accums := fun s hs => h.accums s (hp.mem_iff.mpr hs)

end Segment.Own

namespace Workspace

/-- An open list is a frame on top of the others. -/
theorem Widens.dropFrame {w w' : Workspace} {slots : List Nat} {f : FieldFrame}
    (h : Widens { w with frames := f :: w.frames } w' slots) :
    w.Widens { w' with frames := w'.frames.tail } slots where
  scopes := h.scopes
  counters := h.counters
  enabled := h.enabled
  total := h.total
  numbered := h.numbered
  locals := h.locals
  pending := h.pending
  frames := by
    rw [h.frames]
    rfl

end Workspace

namespace Build

variable {α β : Type} {w w' w₁ : Workspace} {slots : List Nat}

-- ======================================================= one field

/-- The segments own the slots handed out, each as many as it says, and
no field list in them has come apart. -/
def Listed (w : Workspace) (segments : List Segment) (w' : Workspace) : Prop :=
  ∃ slots, w.Widens w' slots ∧ Segment.Own segments slots ∧
    (w.IsTidy → Node.AllTidy (segments.map (·.body)))

namespace Listed

theorem nil (w : Workspace) : Listed w [] w :=
  ⟨[], (Grows.refl w).toWidens, .nil, fun _ => Node.allTidy_nil⟩

/-- One field of a list, then the others. -/
theorem cons {segment : Segment} {others : List Segment} (h : Listed w [segment] w₁)
    (h' : Listed w₁ others w') : Listed w (segment :: others) w' := by
  obtain ⟨xs, hwidens, hown, htidy⟩ := h
  obtain ⟨ys, hwidens', hown', htidy'⟩ := h'
  refine ⟨xs ++ ys, hwidens.trans hwidens', hown.append hown', fun hw => ?_⟩
  exact Node.allTidy_append.mpr ⟨htidy hw, htidy' (hwidens.isTidy hw)⟩

end Listed

/-- The step makes segments, each counted apart from the others. -/
def Lists (step : Build α) (made : α → List Segment) : Prop :=
  ∀ w a w', step w = .ok a w' → Listed w (made a) w'

/-- The innermost open list is the last one opened. -/
theorem frame_eq_ok {f : FieldFrame} (h : frame w = .ok f w') :
    ∃ rest, w.frames = f :: rest ∧ w' = w := by
  rw [frame, get_bind_apply] at h
  generalize w.frames = frames at h
  cases frames with
  | nil => exact absurd h fail_ne_ok
  | cons g rest =>
      cases h
      exact ⟨rest, rfl, rfl⟩

/-- A list that is open can be looked at. -/
theorem frame_bind_apply {rest : FieldFrame → Build α} {f : FieldFrame}
    (h : w.frames.head? = some f) : (frame >>= rest) w = rest f w := by
  obtain ⟨context, locals, pending, frames⟩ := w
  cases frames with
  | nil => cases h
  | cons g frames =>
      cases h
      rfl

/-- A field begins with a count of its own, on a level for a row of the
base. -/
theorem beginField_apply {f : FieldFrame} (h : w.frames.head? = some f) :
    beginField w = .ok () ((w.onCounter .resetField).opened f.base .inherit) := by
  unfold beginField
  rw [frame_bind_apply h]
  show EStateM.Result.ok ()
    (Workspace.mk ⟨_, (w.context.counters.push .inherit).update _⟩ _ _ _) = _
  rw [Counters.update_push_inherit]
  rfl

/-- A field can only begin in an open list. -/
theorem beginField_eq_ok {u : Unit} (h : beginField w = .ok u w') :
    ∃ f rest, w.frames = f :: rest ∧ w' = (w.onCounter .resetField).opened f.base .inherit := by
  obtain ⟨f, w₁, hframe, -⟩ := bind_eq_ok.mp h
  obtain ⟨rest, hframes, rfl⟩ := frame_eq_ok hframe
  rw [beginField_apply (congrArg List.head? hframes)] at h
  cases h
  exact ⟨f, rest, hframes, rfl⟩

/-- A field ends with what its level has recorded and its counter has
counted. -/
theorem endField_eq_ok {name : String} {value : Node} {segment : Segment}
    (h : endField name value w = .ok segment w') :
    ∃ captured, leave w = .ok captured w' ∧
      segment = .make name value captured.scope.lookup w.counter.segments w.counter.hasWindow := by
  obtain ⟨c, w₁, hcounter, h⟩ := bind_eq_ok.mp h
  cases hcounter
  obtain ⟨captured, w₂, hleave, h⟩ := bind_eq_ok.mp h
  cases h
  exact ⟨captured, hleave, rfl⟩

/-- The steps of a computed field: its value is built with a count of its own
in a level for a row of the base, and the level is closed. -/
theorem field_steps {step : Build Node} {name : String} {mark : Nat} {segment : Segment}
    (h : (beginField >>= fun _ => step >>= fun n => located mark (endField name n)) w
      = .ok segment w') :
    ∃ f rest value w₁ captured, w.frames = f :: rest ∧
      step ((w.onCounter .resetField).opened f.base .inherit) = .ok value w₁ ∧
      leave w₁ = .ok captured w' ∧
      segment = .make name value captured.scope.lookup w₁.counter.segments
        w₁.counter.hasWindow := by
  obtain ⟨u, w₀, hbegin, h⟩ := bind_eq_ok.mp h
  obtain ⟨value, w₁, hvalue, hend⟩ := bind_eq_ok.mp h
  obtain ⟨f, rest, hframes, rfl⟩ := beginField_eq_ok hbegin
  obtain ⟨captured, hleave, rfl⟩ := endField_eq_ok (located_eq_ok.mp hend)
  exact ⟨f, rest, value, w₁, captured, hframes, hvalue, hleave, rfl⟩

/-- One computed field: its count is that of its own slots. -/
theorem field_lists {step : Build Node} (h : Turns [] step fun n => [n]) (name : String)
    (mark : Nat) :
    Lists (beginField >>= fun _ => step >>= fun n => located mark (endField name n))
      fun s => [s] := by
  intro w segment w' hs
  obtain ⟨f, rest, value, w₂, captured, -, hvalue, hleave, rfl⟩ := field_steps hs
  obtain ⟨slots, hgrows, hslots, htidy⟩ := h _ value w₂ hvalue
  -- the field begins with the counter around it, set back
  have hreset : w.Widens (w.onCounter .resetField) [] := .onCounter w _ rfl rfl .nil
  obtain ⟨hscopes, hcounters, hlocals, hpending, hframes⟩ :=
    leave_inherit (w := w.onCounter .resetField) (outer_of_entered hgrows.toWidens)
      hgrows.scopes.trackers hgrows.counters hleave
  obtain ⟨hfield, -⟩ := widens_of_counter (w := w.onCounter .resetField)
    hgrows.toWidens rfl hscopes hcounters
    (hlocals.trans hgrows.locals) (hpending.trans hgrows.pending)
    (hframes.trans hgrows.frames)
  have hperm : slots.Perm value.slots := by simpa using hslots
  refine ⟨slots, hreset.trans hfield, .singleton hperm ?_, fun hw => htidy hw Node.allTidy_nil⟩
  have hstart : ((w.onCounter .resetField).opened f.base .inherit).counter.segments = 0 := by
    show (w.onCounter .resetField).counter.segments = 0
    rw [counter_onCounter]
    rfl
  show w₂.counter.segments = value.slots.length
  rw [hgrows.segments, hstart, Nat.zero_add, hperm.length_eq]

-- =================================================== closing a list

/-- What stays open after a field list: its level, or nothing. -/
def Leaves (isOpen : Bool) (w w' : Workspace) : Prop :=
  if isOpen then ∃ type : DataType, w' = w.opened type .enabled else w' = w

/-- Emptying the level of a list is closing it and opening another. -/
theorem reenter_eq_ok {t type : DataType} {scope : Scope}
    (h : (w.opened t .enabled).Widens w₁ slots)
    (hr : ofContext (·.reenter type) w₁ = .ok scope w') :
    ∃ captured w₂, leave w₁ = .ok captured w₂ ∧ w' = w₂.opened type .enabled := by
  have houters := outer_of_entered h
  have hcounters := counters_of_entered rfl h
  have hreset : w₁.counter.reset = .counting := by
    have henabled : w₁.counter.enabled = true := h.enabled
    unfold Counter.reset Counter.resetField
    rw [henabled]
    rfl
  obtain ⟨⟨⟨current, outer, trackers⟩, counters⟩, locals, pending, frames⟩ := w₁
  cases houters with
  | cons hparent hrest =>
      generalize Workspace.counter _ = c at hcounters hreset
      cases hcounters
      cases hr
      refine ⟨_, _, rfl, ?_⟩
      show Workspace.mk ⟨_, ⟨_, some c.reset :: _⟩⟩ _ _ _ = _
      rw [hreset]
      rfl

/-- Closing a list leaves the counter of the list and closes its level. A
level that is kept for the next list is one that was closed and opened
again. -/
theorem closeFields_eq_ok {t type : DataType} {keepOpen : Bool} {c : Counter}
    (h : (w.opened t .enabled).Widens w₁ slots) (hc : closeFields keepOpen type w₁ = .ok c w') :
    c = w₁.counter ∧ ∃ captured w₂, leave w₁ = .ok captured w₂ ∧ w.Grows w₂ [] ∧
      Leaves keepOpen w₂ w' := by
  cases keepOpen with
  | true =>
      obtain ⟨k, w₂, hk, hc⟩ := bind_eq_ok.mp hc
      cases hk
      obtain ⟨u, w₃, hdiscard, hc⟩ := bind_eq_ok.mp hc
      cases hc
      obtain ⟨scope, hreenter⟩ := discard_eq_ok.mp hdiscard
      obtain ⟨captured, w₂, hleave, rfl⟩ := reenter_eq_ok h hreenter
      exact ⟨rfl, captured, w₂, hleave, (leave_own rfl h hleave).1, type, rfl⟩
  | false =>
      obtain ⟨captured, w₂, hleave, hc⟩ := bind_eq_ok.mp hc
      cases hc
      obtain ⟨hclosed, hcounter⟩ := leave_own rfl h hleave
      rw [hcounter]
      exact ⟨rfl, captured, w', hleave, hclosed, rfl⟩

-- ========================================================== items

/-- One item is put out, then the others. -/
theorem outputHeading_cons {base out output : Heading} {item : FieldItem} {rest : List FieldItem}
    (h : outputHeading base out (item :: rest) = .ok output) :
    ∃ type next, itemType base item = .ok type ∧ Heading.push out ⟨item.output, type⟩ = .ok next ∧
      outputHeading base next rest = .ok output := by
  cases htype : itemType base item with
  | error e =>
      rw [outputHeading, htype] at h
      cases h
  | ok type =>
      cases hpush : Heading.push out ⟨item.output, type⟩ with
      | error e =>
          rw [outputHeading, htype] at h
          simp only [bind, Except.bind, hpush] at h
          cases h
      | ok next =>
          rw [outputHeading, htype] at h
          simp only [bind, Except.bind, hpush] at h
          exact ⟨type, next, rfl, hpush, h⟩

/-- Only the columns that are put out matter for the heading. -/
theorem outputHeading_congr {base : Heading} {items others : List FieldItem}
    (h : items.map (fun item => (itemType base item, item.output))
      = others.map fun item => (itemType base item, item.output)) (out : Heading) :
    outputHeading base out items = outputHeading base out others := by
  induction items generalizing out others with
  | nil => rw [List.map_eq_nil_iff.mp h.symm]
  | cons item rest ih =>
      cases others with
      | nil => cases h
      | cons other others =>
          obtain ⟨hfirst, hrest⟩ := List.cons.inj h
          obtain ⟨htype, houtput⟩ := Prod.mk.inj hfirst
          simp only [outputHeading, htype, houtput, ih hrest]

/-- The names of a list's columns are distinct, since each is pushed. -/
theorem outputHeading_eq_ok {base out output : Heading} {items : List FieldItem}
    (h : outputHeading base out items = .ok output) (hout : out.names.Nodup) :
    (out.names ++ items.map FieldItem.output).Nodup := by
  induction items generalizing out with
  | nil => rwa [List.map_nil, List.append_nil]
  | cons item rest ih =>
      obtain ⟨type, next, -, hpush, h⟩ := outputHeading_cons h
      have hnodup := ih h (Heading.nodup_names_push hpush hout)
      obtain ⟨-, rfl⟩ := Heading.push_eq_ok.mp hpush
      rw [Heading.names_append, List.append_assoc] at hnodup
      exact hnodup

/-- The items of a list are its entries, or what an all-but list is
expanded to. -/
theorem fieldItems_cases {f : FieldFrame} {entries : List (FieldSpec Segment)}
    {items : List FieldItem} (h : fieldItems f entries w = .ok items w') :
    w' = w ∧ (f.allBut = false ∧ items = entries.map FieldItem.ofSpec ∨
      f.allBut = true ∧ ∃ expanded,
        FieldSpec.expand (f.base.heading?.getD []) entries = .ok expanded ∧
        items = expanded.filterMap FieldItem.ofExpanded?) := by
  unfold fieldItems at h
  split at h
  · rename_i hallBut
    obtain ⟨expanded, w₁, hexpand, h⟩ := bind_eq_ok.mp h
    obtain ⟨hok, rfl⟩ := ofExcept_eq_ok.mp hexpand
    cases h
    exact ⟨rfl, .inr ⟨hallBut, expanded, hok, rfl⟩⟩
  · rename_i hplain
    cases h
    exact ⟨rfl, .inl ⟨eq_false_of_ne_true hplain, rfl⟩⟩

/-- The computed items of a list with a heading are its computed fields
as written. -/
theorem fieldItems_eq_ok {f : FieldFrame} {entries : List (FieldSpec Segment)}
    {items : List FieldItem} (h : fieldItems f entries w = .ok items w')
    (hnodup : (items.map FieldItem.output).Nodup) :
    w' = w ∧ (items.filterMap FieldItem.segment?).Perm (FieldSpec.computed entries) := by
  obtain ⟨rfl, ⟨-, rfl⟩ | ⟨-, expanded, hexpand, rfl⟩⟩ := fieldItems_cases h
  · refine ⟨rfl, ?_⟩
    have hitems : (entries.map FieldItem.ofSpec).filterMap FieldItem.segment?
        = FieldSpec.computed entries := by
      rw [List.filterMap_map, FieldSpec.computed, FieldSpec.extensions, List.map_filterMap]
      apply List.filterMap_congr
      intro entry _
      cases entry with
      | project name => rfl
      | rename source target => rfl
      | extend name segment => rfl
    rw [hitems]
  · exact ⟨rfl, FieldSpec.segments_perm hexpand hnodup⟩

/-- An item is computed, or its segment loads a column. -/
theorem itemSegment_cases (base : Heading) (item : FieldItem) :
    item.segment? = some (itemSegment base item) ∨ item.segment? = none ∧
      (itemSegment base item).accums = 0 ∧
      ∃ name type, (itemSegment base item).body = .variable name .field type := by
  cases item with
  | project name => exact .inr ⟨rfl, rfl, _, _, rfl⟩
  | rename source target => exact .inr ⟨rfl, rfl, _, _, rfl⟩
  | extend segment => exact .inl rfl

/-- Loads of kept columns have no slots, so those of a list are in what it
computes. -/
theorem allSlots_itemSegments (base : Heading) (items : List FieldItem) :
    Node.allSlots ((items.map (itemSegment base)).map (·.body))
      = Node.allSlots ((items.filterMap FieldItem.segment?).map (·.body)) := by
  induction items with
  | nil => rfl
  | cons item rest ih =>
      rw [List.map_cons, List.map_cons, Node.allSlots_cons, ih, List.filterMap_cons]
      rcases itemSegment_cases base item with hsome | ⟨hnone, -, name, type, hbody⟩
      · rw [hsome, List.map_cons, Node.allSlots_cons]
      · rw [hnone, hbody, Node.slots_variable, List.nil_append]

/-- What holds of the computed items holds of all: loading a column
folds nothing. -/
theorem itemSegments_own (base : Heading) {items : List FieldItem}
    (h : Segment.Own (items.filterMap FieldItem.segment?) slots) :
    Segment.Own (items.map (itemSegment base)) slots where
  slots := by
    rw [allSlots_itemSegments]
    exact h.slots
  accums := by
    intro s hs
    obtain ⟨item, hitem, rfl⟩ := List.mem_map.mp hs
    rcases itemSegment_cases base item with hsome | ⟨-, haccums, name, type, hbody⟩
    · exact h.accums _ (List.mem_filterMap.mpr ⟨item, hitem, hsome⟩)
    · rw [haccums, hbody, Node.slots_variable, List.length_nil]

/-- Loads of kept columns are tidy as they are. -/
theorem itemSegments_tidy {base : Heading} {items : List FieldItem}
    (h : Node.AllTidy ((items.filterMap FieldItem.segment?).map (·.body))) :
    Node.AllTidy ((items.map (itemSegment base)).map (·.body)) := by
  intro n hn
  obtain ⟨s, hs, rfl⟩ := List.mem_map.mp hn
  obtain ⟨item, hitem, rfl⟩ := List.mem_map.mp hs
  rcases itemSegment_cases base item with hsome | ⟨-, -, name, type, hbody⟩
  · exact h _ (List.mem_map_of_mem (List.mem_filterMap.mpr ⟨item, hitem, hsome⟩))
  · rw [hbody]
    exact Node.isTidy_variable

/-- The node of a list is partitioned if its computed items own the
slots of the list's counter. -/
theorem fieldNode_tidy {base : Node} {heading output : Heading} {type : DataType}
    {order : List Segment} {items : List FieldItem} (hbase : base.IsTidy)
    (horder : Node.AllTidy (order.map (·.body)))
    (hitems : Node.AllTidy ((items.filterMap FieldItem.segment?).map (·.body)))
    (hown : Segment.Own (items.filterMap FieldItem.segment?) slots)
    (hnumbered : slots.Perm (List.range slots.length)) :
    (fieldNode base heading output type order items slots.length).IsTidy := by
  unfold fieldNode
  split
  · exact Node.isTidy_order.mpr ⟨hbase, horder⟩
  · split
    · exact Node.isTidy_project.mpr hbase
    · exact Node.isTidy_rename.mpr hbase
    · have hown' := itemSegments_own heading hown
      refine Node.isTidy_transform.mpr ⟨⟨.of_perm ?_, hown'.accums⟩, hbase, horder,
        itemSegments_tidy hitems⟩
      have hslots := hown'.slots.symm.trans hnumbered
      rw [Node.allSlots, List.flatMap_map] at hslots
      rw [List.flatMap_assoc]
      exact hslots

/-- A projection, a renaming and a transformation all leave the slots of
the base alone. -/
theorem fieldNode_slots (base : Node) (heading output : Heading) (type : DataType)
    (order : List Segment) (items : List FieldItem) (accums : Nat) :
    (fieldNode base heading output type order items accums).slots = base.slots := by
  unfold fieldNode
  split
  · rfl
  · split
    · rfl
    · rfl
    · rfl

-- ====================================================== whole lists

/-- The steps that close a list. -/
theorem finishFields_steps {base n : Node} {order : List Segment}
    {entries : List (FieldSpec Segment)} {keepOpen : Bool}
    (h : finishFields base order entries keepOpen w = .ok n w') :
    ∃ f rest items output c, w.frames = f :: rest ∧
      fieldItems f entries { w with frames := w.frames.tail }
        = .ok items { w with frames := w.frames.tail } ∧
      outputHeading (f.base.heading?.getD []) [] items = .ok output ∧
      closeFields keepOpen (if f.base.isRelation then .relation output else .tuple output)
        { w with frames := w.frames.tail } = .ok c w' ∧
      n = fieldNode base (f.base.heading?.getD []) output
        (if f.base.isRelation then .relation output else .tuple output) order items c.total := by
  obtain ⟨f, w₁, hframe, h⟩ := bind_eq_ok.mp h
  obtain ⟨u, w₂, htail, h⟩ := bind_eq_ok.mp h
  obtain ⟨items, w₃, hitems, h⟩ := bind_eq_ok.mp h
  obtain ⟨output, w₄, houtput, h⟩ := bind_eq_ok.mp h
  obtain ⟨c, w₅, hclose, hnode⟩ := bind_eq_ok.mp h
  obtain ⟨rest, hframes, rfl⟩ := frame_eq_ok hframe
  obtain ⟨hheading, rfl⟩ := ofExcept_eq_ok.mp houtput
  obtain ⟨rfl, -⟩ := fieldItems_eq_ok hitems (outputHeading_eq_ok hheading List.nodup_nil)
  cases htail
  cases hnode
  exact ⟨f, rest, items, output, c, hframes, hitems, hheading, hclose, rfl⟩

/-- The end of a list without all-but. -/
theorem finishFields_plain {f : FieldFrame} {base n : Node} {order : List Segment}
    {rest : List FieldFrame} {entries : List (FieldSpec Segment)} {keepOpen : Bool}
    (hframes : w.frames = f :: rest) (hf : f.allBut = false) :
    finishFields base order entries keepOpen w = .ok n w' ↔ ∃ output c,
      outputHeading (f.base.heading?.getD []) [] (entries.map .ofSpec) = .ok output ∧
      closeFields keepOpen (if f.base.isRelation then .relation output else .tuple output)
        { w with frames := rest } = .ok c w' ∧
      n = fieldNode base (f.base.heading?.getD []) output
        (if f.base.isRelation then .relation output else .tuple output) order
        (entries.map .ofSpec) c.total := by
  constructor
  · intro h
    obtain ⟨g, rest', items, output, c, hframes', hitems, houtput, hclose, hnode⟩ :=
      finishFields_steps h
    rw [hframes] at hframes' hitems hclose
    cases hframes'
    obtain ⟨-, ⟨-, rfl⟩ | ⟨hallBut, -⟩⟩ := fieldItems_cases hitems
    · exact ⟨output, c, houtput, hclose, hnode⟩
    · rw [hf] at hallBut
      cases hallBut
  · rintro ⟨output, c, houtput, hclose, rfl⟩
    obtain ⟨context, locals, pending, frames⟩ := w
    cases hframes
    have hitems : fieldItems f entries ⟨context, locals, pending, rest⟩
        = .ok (entries.map .ofSpec) ⟨context, locals, pending, rest⟩ := by
      unfold fieldItems
      rw [hf]
      rfl
    refine bind_eq_ok.mpr ⟨f, _, rfl, bind_eq_ok.mpr ⟨(), _, rfl, ?_⟩⟩
    refine bind_eq_ok.mpr ⟨_, _, hitems, ?_⟩
    exact bind_eq_ok.mpr ⟨output, _, ofExcept_eq_ok.mpr ⟨houtput, rfl⟩,
      bind_eq_ok.mpr ⟨c, w', hclose, rfl⟩⟩

/-- Closing a list in whose level `slots` were handed out, all of them
to its computed fields. -/
theorem finishFields_eq_ok {base n : Node} {order : List Segment}
    {entries : List (FieldSpec Segment)} {keepOpen : Bool} {t : DataType} {f : FieldFrame}
    (h : Widens { w.opened t .enabled with frames := f :: w.frames } w₁ slots)
    (hown : Segment.Own (FieldSpec.computed entries) slots)
    (hn : finishFields base order entries keepOpen w₁ = .ok n w') :
    (∃ w₂, w.Grows w₂ [] ∧ Leaves keepOpen w₂ w') ∧ n.slots = base.slots ∧
      (base.IsTidy → Node.AllTidy (order.map (·.body)) →
        Node.AllTidy ((FieldSpec.computed entries).map (·.body)) → n.IsTidy) := by
  obtain ⟨g, rest, items, output, c, -, hitems, hheading, hclose, rfl⟩ := finishFields_steps hn
  obtain ⟨-, hperm⟩ := fieldItems_eq_ok hitems (outputHeading_eq_ok hheading List.nodup_nil)
  have hwidens := Widens.dropFrame (w := w.opened t .enabled) h
  obtain ⟨rfl, -, w₂, -, hclosed, hleaves⟩ := closeFields_eq_ok hwidens hclose
  have htotal : w₁.counter.total = slots.length := hwidens.total.trans (Nat.zero_add _)
  have hnumbered : slots.Perm (List.range slots.length) := by
    rw [List.range_eq_range']
    exact hwidens.numbered
  refine ⟨⟨w₂, hclosed, hleaves⟩, fieldNode_slots .., fun hbase horder hcomputed => ?_⟩
  show (fieldNode base _ output _ order items w₁.counter.total).IsTidy
  rw [htotal]
  exact fieldNode_tidy hbase horder (fun n hn => hcomputed n ((hperm.map _).mem_iff.mp hn))
    (hown.perm hperm.symm) hnumbered

/-- A key loads a column, and that it is read is noted. -/
theorem orderKey_eq_ok {name : String} {descending grouped : Bool} {segment : Segment}
    (h : orderKey name descending grouped w = .ok segment w') :
    w.Grows w' [] ∧ segment.body.IsTidy := by
  obtain ⟨found, w₁, hresolve, h⟩ := bind_eq_ok.mp h
  have hread : w.Grows w₁ [] := by
    cases hresolve
    exact .onScopes w (.resolve _ name)
  cases found with
  | none => exact absurd h fail_ne_ok
  | some symbol =>
      dsimp only at h
      split at h
      · cases h
        exact ⟨hread, Node.isTidy_variable⟩
      · exact absurd h fail_ne_ok

/-- The steps of a list of keys: the first one, then the others. -/
theorem orderKeys_steps {key : OrderKey} {rest : List OrderKey} {segments : List Segment}
    (h : orderKeys (key :: rest) w = .ok segments w') :
    ∃ segment others w₁, orderKey key.name key.descending key.grouped w = .ok segment w₁ ∧
      orderKeys rest w₁ = .ok others w' ∧ segments = segment :: others := by
  obtain ⟨segment, w₁, hkey, h⟩ := bind_eq_ok.mp h
  obtain ⟨others, w₂, hrest, h⟩ := bind_eq_ok.mp h
  cases h
  exact ⟨segment, others, w₁, located_eq_ok.mp hkey, hrest, rfl⟩

/-- Keys are loads and take no slots. -/
theorem orderKeys_eq_ok {keys : List OrderKey} {segments : List Segment}
    (h : orderKeys keys w = .ok segments w') :
    w.Grows w' [] ∧ Node.AllTidy (segments.map (·.body)) := by
  induction keys generalizing w segments with
  | nil =>
      cases h
      exact ⟨.refl _, Node.allTidy_nil⟩
  | cons key rest ih =>
      obtain ⟨segment, others, w₁, hkey, hrest, rfl⟩ := orderKeys_steps h
      obtain ⟨hgrows, htidy⟩ := orderKey_eq_ok hkey
      obtain ⟨hgrows', htidy'⟩ := ih hrest
      exact ⟨hgrows.trans hgrows', Node.allTidy_cons.mpr ⟨htidy, htidy'⟩⟩

/-- The step builds a tree; with `isOpen` it leaves the level of the
tree's field list. -/
def Builds (isOpen : Bool) (step : Build Node) : Prop :=
  ∀ w n w', step w = .ok n w' → ∃ slots w₁, w.Grows w₁ slots ∧ slots.Perm n.slots ∧
    (w.IsTidy → n.IsTidy) ∧ Leaves isOpen w₁ w'

namespace Builds

variable {step : Build Node}

/-- What is no field list leaves nothing open. -/
theorem closed {keepOpen : Bool} (h : Turns [] step fun n => [n]) :
    Builds (keepOpen && false) step := by
  intro w n w' hn
  obtain ⟨slots, hgrows, hslots, htidy⟩ := h w n w' hn
  rw [Bool.and_false]
  exact ⟨slots, w', hgrows, by simpa using hslots,
    fun hw => by simpa using htidy hw Node.allTidy_nil, rfl⟩

/-- What is built to its end is built with nothing left open. -/
theorem turns (h : Builds false step) : Turns [] step fun n => [n] := by
  intro w n w' hn
  obtain ⟨slots, w₁, hgrows, hslots, htidy, rfl⟩ := h w n w' hn
  exact ⟨slots, hgrows, by simpa using hslots, fun hw _ => by simpa using htidy hw⟩

/-- A mark only matters to a fault. -/
theorem located {isOpen : Bool} {mark : Nat} (h : Builds isOpen step) :
    Builds isOpen (located mark step) :=
  fun w n w' hn => h w n w' (located_eq_ok.mp hn)

end Builds

/-- A list that follows another one goes on with its level, and only the
frame is new. -/
theorem chainFields_eq_ok {base : Node} {allBut : Bool} {u : Unit}
    (h : chainFields base allBut w = .ok u w') :
    base.dataType.heading?.isNone = false ∧
      w' = { w with frames := ⟨base.dataType, allBut⟩ :: w.frames } := by
  unfold chainFields at h
  split at h
  · obtain ⟨v, w₁, hfail, -⟩ := bind_eq_ok.mp h
    exact absurd hfail fail_ne_ok
  · cases h
    exact ⟨eq_false_of_ne_true ‹_›, rfl⟩

/-- A list that stands alone opens a level for a row of its base. -/
theorem enterFields_eq_ok {base : Node} {allBut : Bool} {u : Unit}
    (h : enterFields base allBut w = .ok u w') :
    base.dataType.heading?.isNone = false ∧
      w' = { w.opened base.dataType .enabled with
        frames := ⟨base.dataType, allBut⟩ :: w.frames } := by
  unfold enterFields at h
  split at h
  · obtain ⟨v, w₁, hfail, -⟩ := bind_eq_ok.mp h
    exact absurd hfail fail_ne_ok
  · cases h
    exact ⟨eq_false_of_ne_true ‹_›, rfl⟩

/-- A list from its opening to its closing. -/
theorem list_eq_ok {node n : Node} {opens : Build Unit} {keys : List OrderKey}
    {entries : Build (List (FieldSpec Segment))} {keepOpen : Bool}
    (hopens : ∀ u w₂, opens w₁ = .ok u w₂ → ∃ (t : DataType) (f : FieldFrame),
      w₂ = { w.opened t .enabled with frames := f :: w.frames })
    (hentries : Lists entries FieldSpec.computed)
    (h : (opens >>= fun _ => orderKeys keys >>= fun order => entries >>= fun fields =>
      finishFields node order fields keepOpen) w₁ = .ok n w') :
    (∃ w₂, w.Grows w₂ [] ∧ Leaves keepOpen w₂ w') ∧ n.slots = node.slots ∧
      (w.IsTidy → node.IsTidy → n.IsTidy) := by
  obtain ⟨u, w₂, hopen, h⟩ := bind_eq_ok.mp h
  obtain ⟨order, w₃, horder, h⟩ := bind_eq_ok.mp h
  obtain ⟨fields, w₄, hfields, hfinish⟩ := bind_eq_ok.mp h
  obtain ⟨t, f, rfl⟩ := hopens u w₂ hopen
  obtain ⟨hkeys, hkeysTidy⟩ := orderKeys_eq_ok horder
  obtain ⟨own, hlist, hown, hownTidy⟩ := hentries w₃ fields w₄ hfields
  obtain ⟨hclosed, hslots, htidy⟩ :=
    finishFields_eq_ok (hkeys.toWidens.trans hlist) hown hfinish
  exact ⟨hclosed, hslots, fun hw hnode => htidy hnode hkeysTidy (hownTidy (hkeys.isTidy hw))⟩

/-- A list over a base opens its own level, or takes over the one left
for it. -/
theorem fields_builds {isOpen : Bool} {base : Build Node} (allBut keepOpen : Bool)
    (keys : List OrderKey) {entries : Build (List (FieldSpec Segment))}
    (hbase : Builds isOpen base) (hentries : Lists entries FieldSpec.computed) :
    Builds keepOpen (base >>= fun node =>
      let rest (_ : Unit) := orderKeys keys >>= fun order => entries >>= fun fields =>
        finishFields node order fields keepOpen
      if isOpen then chainFields node allBut >>= rest else enterFields node allBut >>= rest) := by
  intro w n w' hn
  obtain ⟨node, w₁, hnode, hlist⟩ := bind_eq_ok.mp hn
  obtain ⟨slots, w₀, hgrows, hslots, htidy, hleft⟩ := hbase w node w₁ hnode
  have hdone : (∃ w₂, w₀.Grows w₂ [] ∧ Leaves keepOpen w₂ w') ∧ n.slots = node.slots ∧
      (w₀.IsTidy → node.IsTidy → n.IsTidy) := by
    cases isOpen with
    | true =>
        obtain ⟨t, rfl⟩ := hleft
        exact list_eq_ok (fun _ _ h => ⟨t, _, (chainFields_eq_ok h).2⟩) hentries hlist
    | false =>
        cases hleft
        exact list_eq_ok (fun _ _ h => ⟨_, _, (enterFields_eq_ok h).2⟩) hentries hlist
  obtain ⟨⟨w₂, hclosed, hleaves⟩, hsame, hn⟩ := hdone
  refine ⟨slots, w₂, ?_, ?_, fun hw => hn (hgrows.isTidy hw) (htidy hw), hleaves⟩
  · have hall := hgrows.trans hclosed
    rwa [List.append_nil] at hall
  · rwa [hsame]

end Build

end RelQuery
