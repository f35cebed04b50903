/-
Field lists in a row.

A list that another one follows does not close its level: the level is
emptied, seeded with the columns that the list puts out, and taken over
by the next one. A list that stands alone closes its level, and the next
one opens another, for the type of the node before it. Both come to the
same if the two types are the same, and they are unless the list has
nothing but keys. Then the node has the type of its base, and the level
that is kept has no columns at all (`Node.keptType`).

Even so only keys are looked up in that level. Fields have a scope of
their own inside it, which offers all columns of the base, so they do
not notice what is missing (`fieldEntries_atList`). What remains is
the case of a key that follows an ordering and names one of its columns
(`Continues`).
-/
import RelQuery.Proofs.Build.Closing
import RelQuery.Proofs.Build.Veil

namespace RelQuery

open Workspace

namespace Build

-- ======================================================= definitions

/-- One list over a base, in a level of its own or in one that is left
open. -/
def list (catalog : Catalog) (isOpen keepOpen : Bool) (node : Node) (l : FieldList) :
    Build Node := do
  if isOpen then chainFields node l.allBut else enterFields node l.allBut
  let keys ← orderKeys l.order
  let fields ← fieldEntries catalog l.entries
  finishFields node keys fields keepOpen

/-- Lists over a base, each in the level that the one before it
leaves. -/
def chain (catalog : Catalog) (isOpen : Bool) (node : Node) : List FieldList → Build Node
  | [] => return node
  | l :: rest => do
    let node ← list catalog isOpen (!rest.isEmpty) node l
    chain catalog true node rest

/-- Lists over a base, each in a level of its own. -/
def separate (catalog : Catalog) (node : Node) : List FieldList → Build Node
  | [] => return node
  | l :: rest => do separate catalog (← list catalog false false node l) rest

/-- Two runs give the same and end in the same workspace, or fail for
the same cause. -/
inductive SameOutcome {α : Type} : EStateM.Result BuildFault Workspace α →
    EStateM.Result BuildFault Workspace α → Prop
  | ok (a : α) (w : Workspace) : SameOutcome (.ok a w) (.ok a w)
  | error {f f' : BuildFault} (w w' : Workspace) (h : f'.error = f.error) :
    SameOutcome (.error f w) (.error f' w')

end Build

/-- The node does nothing but order its base. -/
def Node.isOrder : Node → Bool
  | .order .. => true
  | _ => false

/-- The type that the level of a list is kept open for. -/
def Node.keptType (n : Node) : DataType :=
  if n.isOrder then if n.dataType.isRelation then .relation [] else .tuple [] else n.dataType

/-- The workspace after a list: around its level, or with the level that
is kept. -/
def Workspace.kept (isOpen : Bool) (n : Node) (w : Workspace) : Workspace :=
  if isOpen then w.opened n.keptType .enabled else w

namespace Build

/-- No key of a list that follows an ordering names a column. -/
def Continues (node : Node) (l : FieldList) : Prop :=
  node.isOrder = true → ∀ key ∈ l.order, (node.dataType.heading?.getD []).has key.name = false

/-- Every list that follows another one can do so in the level of that
one. -/
def ContinuesAll (catalog : Catalog) (node : Node) : List FieldList → Workspace → Prop
  | [], _ => True
  | l :: rest, w => ∀ n w', list catalog false false node l w = .ok n w' →
    (∀ next ∈ rest.head?, Continues n next) ∧ ContinuesAll catalog n rest w'

variable {α β : Type} {catalog : Catalog} {w w' w₁ v : Workspace} {k : Nat} {f : FieldFrame}
  {slots : List Nat}

-- ===================================================== same outcomes

namespace SameOutcome

theorem refl (r : EStateM.Result BuildFault Workspace α) : SameOutcome r r := by
  cases r with
  | ok a w => exact .ok a w
  | error f w => exact .error w w rfl

/-- The middle run has the same outcome as both. -/
theorem trans {r r' r'' : EStateM.Result BuildFault Workspace α} (h : SameOutcome r r')
    (h' : SameOutcome r' r'') : SameOutcome r r'' := by
  cases h with
  | ok a w => exact h'
  | error w w' h =>
      cases h' with
      | error _ w'' h' => exact .error w w'' (h'.trans h)

/-- Runs go on alike from where they have led alike. -/
theorem bind {step step' : Build α} {rest rest' : α → Build β} (h : SameOutcome (step w) (step' v))
    (hrest : ∀ a u, step w = .ok a u → SameOutcome (rest a u) (rest' a u)) :
    SameOutcome ((step >>= rest) w) ((step' >>= rest') v) := by
  show SameOutcome (EStateM.bind step rest w) (EStateM.bind step' rest' v)
  unfold EStateM.bind
  cases hstep : step w with
  | ok a u =>
      rw [hstep] at h
      generalize step' v = r at h
      cases h
      exact hrest a u hstep
  | error f u =>
      rw [hstep] at h
      generalize step' v = r at h
      cases h with
      | error _ _ h => exact .error _ _ h

end SameOutcome

/-- Steps that do not notice what is missing, and then one in which it
is gone. -/
theorem Overlooks.sameOutcome {P Q : Workspace → Prop} {step : Build α} {rest : α → Build β}
    (h : Overlooks (Scopes.clear k) P Q step) (hw : P w)
    (hrest : ∀ a u, Q u → SameOutcome (rest a u) (rest a (u.clear k))) :
    SameOutcome ((step >>= rest) w) ((step >>= rest) (w.clear k)) := by
  obtain ⟨hrun, hends⟩ := h w hw
  show SameOutcome (EStateM.bind step rest w) (EStateM.bind step rest (w.changed (Scopes.clear k)))
  unfold EStateM.bind
  rw [hrun]
  cases hstep : step w with
  | ok a u => exact hrest a u (hends a u hstep)
  | error f u => exact .error _ _ rfl

-- ================================================ keys and fields

/-- The innermost scope is that of an open list. It has `k` others
around it, and all names that it offers are columns of the base. -/
structure AtList (k : Nat) (f : FieldFrame) (w : Workspace) : Prop where
  depth : w.context.scopes.outer.length = k
  frame : w.frames.head? = some f
  names : ∀ name, (f.base.heading?.getD []).has name = false →
    w.context.scopes.current.get? name = none

namespace AtList

/-- A list stays open while its level records reads. -/
theorem widens (h : AtList k f w) (hwidens : w.Widens w' slots) : AtList k f w' := by
  have hlevels := hwidens.scopes.levels
  have hcurrent : w.context.scopes.current.Widens w'.context.scopes.current := by
    cases hlevels with
    | cons hcurrent _ => exact hcurrent
  refine ⟨?_, ?_, fun name hname => ?_⟩
  · exact (Nat.succ.inj hlevels.length_eq).symm.trans h.depth
  · rw [hwidens.frames]
    exact h.frame
  · unfold Scope.get?
    rw [hcurrent.symbols]
    exact h.names name hname

/-- The scope of a field offers all that the one of the list does. -/
theorem opened (h : AtList k f w) (hheading : f.base.heading?.isNone = false) (mode : FoldMode) :
    (w.opened f.base mode).Inside k (k + 1) where
  veiled := by
    refine ⟨[], _, _, _, rfl, h.depth, ?_, fun name hname => ?_⟩
    · show (Scope.ofType (some f.base) _).heading.isSome = true
      rw [Scope.heading_ofType]
      cases hbase : f.base.heading? with
      | none =>
          rw [hbase] at hheading
          cases hheading
      | some heading => rfl
    · exact h.names name (Scope.get?_ofType.mp hname)
  depth := congrArg (· + 1) h.depth

end AtList

/-- Keys that are no columns of the base lead out of the list. -/
theorem orderKeys_atList {keys : List OrderKey}
    (h : ∀ key ∈ keys, (f.base.heading?.getD []).has key.name = false) :
    Overlooks (Scopes.clear k) (AtList k f) (AtList k f) (orderKeys keys) := by
  induction keys with
  | nil => exact .pure
  | cons key rest ih =>
      obtain ⟨hkey, hrest⟩ := List.forall_mem_cons.mp h
      have hresolve : Overlooks (Scopes.clear k) (AtList k f) (AtList k f) (resolve key.name) := by
        refine .onScopes (fun w hw => ?_) fun w hw => ?_
        · exact Scopes.resolve_clear (Scopes.find?_clear_current hw.depth (hw.names _ hkey))
        · exact hw.widens (Grows.onScopes w (.resolve _ key.name)).toWidens
      refine (Overlooks.located _ (hresolve.bind fun found => ?_)).bind fun _ =>
        (ih hrest).bind fun _ => .pure
      split
      · split
        · exact .pure
        · exact .fail _
      · exact .fail _

/-- A field begins on a level of its own, which hides the one that was
cleared. -/
theorem beginField_atList (hheading : f.base.heading?.isNone = false) :
    Overlooks (Scopes.clear k) (AtList k f) (Inside k (k + 1)) beginField := by
  have hopen : Overlooks (Scopes.clear k) (AtList k f) (Inside k (k + 1))
      (onContext (·.push f.base .inherit)) :=
    .modify (fun _ hw => clear_opened (Nat.le_of_eq hw.depth.symm) _ _)
      fun _ hw => hw.opened hheading _
  have hreset : Overlooks (Scopes.clear k) (Inside k (k + 1)) (Inside k (k + 1))
      (onCounters (·.update .resetField)) := .modify (fun _ _ => rfl) fun _ hw => hw
  intro w hw
  unfold beginField
  rw [frame_bind_apply hw.frame, frame_bind_apply (w := w.changed (Scopes.clear k)) hw.frame]
  exact hopen.bind (fun _ => hreset) w hw

/-- Fields do not notice that the scope of the list offers nothing. -/
theorem computedField_atList (hheading : f.base.heading?.isNone = false) (name : String)
    (mark : Nat) (value : Expr) :
    Overlooks (Scopes.clear k) (AtList k f) (AtList k f)
      (computedField catalog name mark value) := by
  have hleave : Overlooks (Scopes.clear k) (Inside k (k + 1)) (fun _ => True) leave :=
    fun w hw => ⟨leave_clear hw.veiled.depth, fun _ _ _ => trivial⟩
  have hrun := (beginField_atList hheading).bind fun _ =>
    (expression_overlooks catalog value).bind fun n =>
      (endField_overlooks hleave name n).located mark
  refine hrun.ends fun w segment w' hw hsegment => ?_
  obtain ⟨slots, hwidens, -⟩ :=
    field_lists (expression_builds catalog false value).turns name mark w segment w' hsegment
  exact hw.widens hwidens

/-- So no field of a list notices that the level of the list was cleared. -/
theorem fieldEntries_atList (hheading : f.base.heading?.isNone = false)
    (entries : List FieldEntry) :
    Overlooks (Scopes.clear k) (AtList k f) (AtList k f) (fieldEntries catalog entries) := by
  induction entries with
  | nil => exact .pure
  | cons entry rest ih =>
      have hentry : Overlooks (Scopes.clear k) (AtList k f) (AtList k f)
          (fieldEntry catalog entry) := by
        cases entry with
        | plain name mark => exact .pure
        | computed name mark value =>
            refine (renameSource_overlooks value).bind fun source => ?_
            cases source with
            | some source => exact .pure
            | none => exact (computedField_atList hheading name mark value).bind fun _ => .pure
      rw [fieldEntries_cons]
      exact hentry.bind fun _ => ih.bind fun _ => .pure

-- ====================================================== closing again

/-- A level that is closed does not matter any more. -/
theorem closeFields_clear (h : w.context.scopes.outer.length = k) (keepOpen : Bool)
    (type : DataType) :
    SameOutcome (closeFields keepOpen type w) (closeFields keepOpen type (w.clear k)) := by
  obtain ⟨⟨⟨current, outer, trackers⟩, ⟨root, entries⟩⟩, locals, pending, frames⟩ := w
  have hclear : Workspace.clear k
      ⟨⟨⟨current, outer, trackers⟩, ⟨root, entries⟩⟩, locals, pending, frames⟩
      = ⟨⟨⟨current.cleared, outer, trackers⟩, ⟨root, entries⟩⟩, locals, pending, frames⟩ := by
    unfold Workspace.clear Scopes.clear
    dsimp only at h ⊢
    rw [if_pos h, Scopes.clearAt_of_le (Nat.le_of_eq h)]
  rw [hclear]
  cases outer with
  | nil => cases keepOpen <;> exact .error _ _ rfl
  | cons parent rest =>
      cases keepOpen with
      | true => exact .ok _ _
      | false =>
          cases entries with
          | nil => exact .error _ _ rfl
          | cons entry entries => exact .ok _ _

/-- The columns of a list are not looked at when it is closed. -/
theorem finishFields_clear (h : w.context.scopes.outer.length = k) (base : Node)
    (order : List Segment) (entries : List (FieldSpec Segment)) (keepOpen : Bool) :
    SameOutcome (finishFields base order entries keepOpen w)
      (finishFields base order entries keepOpen (w.clear k)) := by
  let P (w : Workspace) : Prop := w.context.scopes.outer.length = k
  have hframe : Overlooks (Scopes.clear k) P P frame := frame_overlooks
  have htail : Overlooks (Scopes.clear k) P P
      (modify fun w => { w with frames := w.frames.tail }) :=
    .modify (fun _ _ => rfl) fun _ hw => hw
  have hoffer (r : Except HeadingError Heading) :
      Overlooks (Scopes.clear k) P P (ofExcept .heading r) := .ofExcept
  refine hframe.sameOutcome h fun f u hu => htail.sameOutcome hu fun _ u hu => ?_
  refine (fieldItems_overlooks f entries).sameOutcome hu fun items u hu => ?_
  refine (hoffer _).sameOutcome hu fun output u hu => ?_
  exact (closeFields_clear hu keepOpen _).bind fun c u _ => .refl _

-- ==================================================== kept levels

/-- The outcome of a list, with `isOpen` in the level that is kept. -/
def keptEnd (isOpen : Bool) :
    EStateM.Result BuildFault Workspace Node → EStateM.Result BuildFault Workspace Node
  | .ok n w => .ok n (w.kept isOpen n)
  | .error f w => .error f w

variable {isOpen : Bool}

/-- A level that is not kept is closed. -/
theorem keptEnd_false (r : EStateM.Result BuildFault Workspace Node) : keptEnd false r = r := by
  cases r with
  | ok n w => rfl
  | error f w => rfl

/-- The level is kept at the end of the same steps. -/
theorem keptEnd_bind {step : Build α} {rest rest' : α → Build Node}
    (h : ∀ a u, step w = .ok a u → SameOutcome (keptEnd isOpen (rest a u)) (rest' a u)) :
    SameOutcome (keptEnd isOpen ((step >>= rest) w)) ((step >>= rest') w) := by
  show SameOutcome (keptEnd isOpen (EStateM.bind step rest w)) (EStateM.bind step rest' w)
  unfold EStateM.bind
  cases hstep : step w with
  | ok a u => exact h a u hstep
  | error f u => exact .refl _

/-- What follows begins in the level that is kept. -/
theorem SameOutcome.next {step step' : Build Node} {rest rest' : Node → Build Node}
    (h : SameOutcome (keptEnd isOpen (step w)) (step' v))
    (hrest : ∀ n u, step w = .ok n u → SameOutcome (rest n u) (rest' n (u.kept isOpen n))) :
    SameOutcome ((step >>= rest) w) ((step' >>= rest') v) := by
  show SameOutcome (EStateM.bind step rest w) (EStateM.bind step' rest' v)
  unfold EStateM.bind
  cases hstep : step w with
  | ok n u =>
      rw [hstep] at h
      change SameOutcome (.ok n (u.kept isOpen n)) (step' v) at h
      generalize step' v = r at h
      cases h
      exact hrest n u hstep
  | error f u =>
      rw [hstep] at h
      change SameOutcome (.error f u) (step' v) at h
      generalize step' v = r at h
      cases h with
      | error _ _ h => exact .error _ _ h

/-- One run closes the level, the other keeps it. -/
theorem keptEnd_close {closing keeping : Build Counter} {c : Counter} {node : Counter → Node}
    (h : closing w = .ok c w₁) (h' : keeping w = .ok c (w₁.kept isOpen (node c))) :
    SameOutcome (keptEnd isOpen ((closing >>= fun c => pure (node c)) w))
      ((keeping >>= fun c => pure (node c)) w) := by
  have hclosed : (closing >>= fun c => pure (node c)) w = .ok (node c) w₁ :=
    bind_eq_ok.mpr ⟨c, w₁, h, rfl⟩
  have hkept : (keeping >>= fun c => pure (node c)) w = .ok (node c) (w₁.kept isOpen (node c)) :=
    bind_eq_ok.mpr ⟨c, _, h', rfl⟩
  rw [hclosed, hkept]
  exact .ok _ _

/-- A list with fields, projected or transformed, has the type that it puts
out. -/
theorem fieldNode_keptType (base : Node) {heading output : Heading} (order : List Segment)
    {items : List FieldItem} (accums : Nat)
    (h : outputHeading heading [] items = .ok output) :
    (fieldNode base heading output
      (if base.dataType.isRelation then .relation output else .tuple output) order items
      accums).keptType = if base.dataType.isRelation then .relation output else .tuple output := by
  unfold fieldNode
  split
  · rename_i hkeys
    -- a list without items puts out no columns
    obtain rfl := List.isEmpty_iff.mp (Bool.and_eq_true_iff.mp hkeys).1
    cases h
    rfl
  · split
    · rfl
    · rfl
    · rfl

/-- A level is closed, or kept for the type that is given. -/
theorem closeFields_both {t : DataType} (h : (w.opened t .enabled).Widens w₁ slots)
    (type : DataType) :
    ∃ w₂, closeFields false type w₁ = .ok w₁.counter w₂ ∧
      closeFields true type w₁ = .ok w₁.counter (w₂.opened type .enabled) := by
  have houters := outer_of_entered h
  have hreenter : ∃ scope w', ofContext (·.reenter type) w₁ = .ok scope w' := by
    obtain ⟨⟨⟨current, outer, trackers⟩, counters⟩, locals, pending, frames⟩ := w₁
    cases houters with
    | cons _ _ => exact ⟨_, _, rfl⟩
  obtain ⟨scope, w', hreenter⟩ := hreenter
  obtain ⟨captured, w₂, hleave, rfl⟩ := reenter_eq_ok h hreenter
  obtain ⟨-, hcounter⟩ := leave_own rfl h hleave
  refine ⟨w₂, bind_eq_ok.mpr ⟨captured, w₂, hleave, ?_⟩, ?_⟩
  · rw [hcounter]
    rfl
  · refine bind_eq_ok.mpr ⟨w₁.counter, w₁, rfl, bind_eq_ok.mpr ⟨(), _, ?_, rfl⟩⟩
    exact discard_eq_ok.mpr ⟨scope, hreenter⟩

/-- A list that is kept open leads to the level that the next one would
open. -/
theorem finishFields_kept {base : Node} {order : List Segment}
    {entries : List (FieldSpec Segment)} {t : DataType} {allBut : Bool} (keepOpen : Bool)
    (h : Widens { w.opened t .enabled with frames := ⟨base.dataType, allBut⟩ :: w.frames } w₁
      slots) :
    SameOutcome (keptEnd keepOpen (finishFields base order entries false w₁))
      (finishFields base order entries keepOpen w₁) := by
  have hwidens := Widens.dropFrame (w := w.opened t .enabled) h
  refine keptEnd_bind fun f u hframe => keptEnd_bind fun _ u' htail => ?_
  refine keptEnd_bind fun items v hitems => keptEnd_bind fun output v' houtput => ?_
  obtain ⟨rest, hframes, rfl⟩ := frame_eq_ok hframe
  obtain ⟨hheading, rfl⟩ := ofExcept_eq_ok.mp houtput
  obtain ⟨rfl, -⟩ := fieldItems_eq_ok hitems (outputHeading_eq_ok hheading List.nodup_nil)
  cases htail
  rw [h.frames] at hframes
  obtain ⟨rfl, -⟩ := List.cons.inj hframes
  cases keepOpen with
  | false =>
      rw [keptEnd_false]
      exact .refl _
  | true =>
      obtain ⟨w₂, hclosed, hkept⟩ := closeFields_both hwidens
        (if base.dataType.isRelation then .relation output else .tuple output)
      have htype := fieldNode_keptType base order u.counter.total hheading
      refine keptEnd_close hclosed (hkept.trans ?_)
      exact congrArg (fun type => EStateM.Result.ok _ (w₂.opened (some type) .enabled)) htype.symm

-- ============================================================ lists

/-- What a list does once its level is there. -/
def listBody (catalog : Catalog) (keepOpen : Bool) (node : Node) (l : FieldList) : Build Node :=
  orderKeys l.order >>= fun keys => fieldEntries catalog l.entries >>= fun fields =>
    finishFields node keys fields keepOpen

/-- The workspace in which a list begins, in a level for a type. -/
def started (node : Node) (l : FieldList) (type : DataType) (w : Workspace) : Workspace :=
  { w.opened type .enabled with frames := ⟨node.dataType, l.allBut⟩ :: w.frames }

variable {node : Node} {l : FieldList}

/-- A list that stands alone opens its level and goes on with its body. -/
theorem list_own (h : node.dataType.heading?.isNone = false) (keepOpen : Bool) :
    list catalog false keepOpen node l w
      = listBody catalog keepOpen node l (started node l node.dataType w) := by
  unfold list enterFields
  rw [h]
  rfl

/-- A list that finds the level open goes on with its body. -/
theorem list_taken (h : node.dataType.heading?.isNone = false) (keepOpen : Bool) (type : DataType) :
    list catalog true keepOpen node l (w.opened type .enabled)
      = listBody catalog keepOpen node l (started node l type w) := by
  unfold list chainFields
  rw [h]
  rfl

/-- Only the end of a list depends on whether its level is kept. -/
theorem listBody_kept (catalog : Catalog) (node : Node) (keepOpen : Bool) (type : DataType) :
    SameOutcome (keptEnd keepOpen (listBody catalog false node l (started node l type w)))
      (listBody catalog keepOpen node l (started node l type w)) := by
  refine keptEnd_bind fun keys u hkeys => keptEnd_bind fun fields u' hfields => ?_
  obtain ⟨slots, hwidens, -⟩ := fieldEntries_lists catalog l.entries u fields u' hfields
  exact finishFields_kept keepOpen ((orderKeys_eq_ok hkeys).1.toWidens.trans hwidens)

/-- If no key names a column of the base, the columns of the level are
not looked at. -/
theorem listBody_clear {keepOpen : Bool} (h : node.dataType.heading?.isNone = false)
    (hkeys : ∀ key ∈ l.order, (node.dataType.heading?.getD []).has key.name = false) :
    SameOutcome (listBody catalog keepOpen node l (started node l node.dataType w))
      (listBody catalog keepOpen node l ((started node l node.dataType w).clear
        (w.context.scopes.outer.length + 1))) := by
  have hstart : AtList (w.context.scopes.outer.length + 1) ⟨node.dataType, l.allBut⟩
      (started node l node.dataType w) := ⟨rfl, rfl, fun _ hname => Scope.get?_ofType.mpr hname⟩
  refine (orderKeys_atList hkeys).sameOutcome hstart fun keys u hu => ?_
  refine (fieldEntries_atList h l.entries).sameOutcome hu fun fields u hu => ?_
  exact finishFields_clear hu.depth node keys fields keepOpen

/-- After an ordering the level has no columns, and that is all. -/
theorem started_keptType (h : node.dataType.heading?.isNone = false)
    (horder : node.isOrder = true) :
    started node l node.keptType w
      = (started node l node.dataType w).clear (w.context.scopes.outer.length + 1) := by
  have hall : w.context.scopes.all.length = w.context.scopes.outer.length + 1 := rfl
  unfold started Workspace.opened entered Workspace.clear Scopes.clear Scopes.enter
  dsimp only
  rw [if_pos hall, Scope.cleared_ofType h, Scopes.clearAt_of_le (Nat.le_of_eq hall), Node.keptType,
    if_pos horder]

/-- A list in an open level does what it does in its own, unless its keys
would notice the difference. -/
theorem list_kept {isOpen : Bool} (keepOpen : Bool)
    (h : isOpen = true → Continues node l) :
    SameOutcome (keptEnd keepOpen (list catalog false false node l w))
      (list catalog isOpen keepOpen node l (w.kept isOpen node)) := by
  -- a base without columns fails either way
  cases hheading : node.dataType.heading?.isNone with
  | true =>
      unfold list enterFields chainFields
      rw [hheading]
      cases isOpen <;> exact .error _ _ rfl
  | false =>
      have hown := listBody_kept (w := w) (l := l) catalog node keepOpen node.dataType
      rw [list_own hheading]
      -- built in its own level, there is nothing to show; in an open one the keys
      -- decide
      cases isOpen with
      | false =>
          show SameOutcome _ (list catalog false keepOpen node l w)
          rw [list_own hheading]
          exact hown
      | true =>
          show SameOutcome _
            (list catalog true keepOpen node l (w.opened node.keptType .enabled))
          rw [list_taken hheading]
          -- only an ordered base leaves a level in which columns are missing
          cases horder : node.isOrder with
          | false =>
              rw [Node.keptType, horder]
              exact hown
          | true =>
              rw [started_keptType hheading horder]
              exact hown.trans (listBody_clear hheading (h rfl horder))

-- ========================================================= in a row

variable {lists : List FieldList}

/-- Lists that can continue one another come to the same in either
way. -/
theorem chain_sameOutcome (hopen : isOpen = true → lists ≠ [])
    (hfirst : isOpen = true → ∀ l ∈ lists.head?, Continues node l)
    (h : ContinuesAll catalog node lists w) :
    SameOutcome (separate catalog node lists w)
      (chain catalog isOpen node lists (w.kept isOpen node)) := by
  induction lists generalizing isOpen node w with
  | nil =>
      cases isOpen with
      | true => exact absurd rfl (hopen rfl)
      | false => exact .ok node w
  | cons l rest ih =>
      have hlist : SameOutcome (keptEnd (!rest.isEmpty) (list catalog false false node l w))
          (list catalog isOpen (!rest.isEmpty) node l (w.kept isOpen node)) :=
        list_kept _ fun hisOpen => hfirst hisOpen l rfl
      refine hlist.next fun n u hn => ?_
      obtain ⟨hnext, hrest⟩ := h n u hn
      cases rest with
      | nil => exact .ok n u
      | cons l' rest => exact ih (fun _ => List.cons_ne_nil _ _) (fun _ => hnext) hrest

/-- A list that stands alone leaves the levels as they were. -/
theorem list_widens {n : Node} (h : list catalog false false node l w = .ok n w') :
    w.context.scopes.Widens w'.context.scopes := by
  obtain ⟨⟨w₂, hgrows, rfl⟩, -⟩ := list_eq_ok (fun _ _ h => ⟨_, _, (enterFields_eq_ok h).2⟩)
    (fieldEntries_lists catalog l.entries) h
  exact hgrows.scopes

/-- A key after an ordering is looked for outside of the list. -/
theorem list_taken_key {key : OrderKey} {keys : List OrderKey} {keepOpen : Bool}
    (horder : node.isOrder = true) (hkeys : l.order = key :: keys)
    (hfind : w.context.scopes.find? key.name = none) {n : Node} :
    list catalog true keepOpen node l (w.kept true node) ≠ .ok n w' := by
  intro h
  -- a base without columns has no list at all
  cases hheading : node.dataType.heading?.isNone with
  | true =>
      unfold list chainFields at h
      rw [hheading] at h
      cases h
  | false =>
      rw [show w.kept true node = w.opened node.keptType .enabled from rfl, list_taken hheading,
        listBody, hkeys] at h
      obtain ⟨segments, w₁, hsegments, -⟩ := bind_eq_ok.mp h
      obtain ⟨segment, w₂, hkey, -⟩ := bind_eq_ok.mp hsegments
      obtain ⟨found, w₃, hresolve, hkey⟩ := bind_eq_ok.mp (located_eq_ok.mp hkey)
      -- an ordered base keeps no columns in force, so the name is looked for further
      -- out
      have hnone : found = none := by
        cases hresolve
        have hempty : (node.keptType.heading?.getD []).has key.name = false := by
          rw [Node.keptType, if_pos horder]
          split
          · rfl
          · rfl
        show ((w.context.scopes.enter _).resolve key.name).1 = none
        rw [Scopes.resolve_eq, Scopes.find?_enter, Scope.get?_ofType.mpr hempty, hfind]
        rfl
      rw [hnone] at hkey
      exact absurd hkey fail_ne_ok

/-- Where no key is known outside of the lists, only lists that can
continue one another are built in a row. -/
theorem continuesAll_of_chain {n : Node}
    (hkeys : ∀ l ∈ lists, ∀ key ∈ l.order, w.context.scopes.find? key.name = none)
    (hfirst : isOpen = true → ∀ l ∈ lists.head?, Continues node l)
    (h : chain catalog isOpen node lists (w.kept isOpen node) = .ok n w') :
    ContinuesAll catalog node lists w := by
  -- the induction is on the lists, from the first on
  induction lists generalizing isOpen node w with
  | nil => trivial
  | cons l rest ih =>
      intro n₁ w₁ hn₁
      -- built apart or in a row, the first list ends alike
      have hlist : SameOutcome (keptEnd (!rest.isEmpty) (list catalog false false node l w))
          (list catalog isOpen (!rest.isEmpty) node l (w.kept isOpen node)) :=
        list_kept _ fun hisOpen => hfirst hisOpen l rfl
      obtain ⟨m, u, hm, hrest⟩ := bind_eq_ok.mp h
      rw [hn₁, hm] at hlist
      change SameOutcome (.ok n₁ (w₁.kept (!rest.isEmpty) n₁)) (.ok m u) at hlist
      cases hlist
      cases rest with
      | nil => exact ⟨fun _ hnext => (nomatch hnext), trivial⟩
      -- the next list runs on the same scopes but for what they have noted
      | cons l' rest =>
          have hkeys' : ∀ l ∈ l' :: rest, ∀ key ∈ l.order,
              w₁.context.scopes.find? key.name = none := by
            intro l hl key hkey
            rw [(list_widens hn₁).find?_eq]
            exact hkeys l (List.mem_cons_of_mem _ hl) key hkey
          -- it can go on from the first one, or it has a key, and that would not be
          -- found
          have hnext : ∀ next ∈ (l' :: rest).head?, Continues n₁ next := by
            rintro _ ⟨⟩ horder
            cases hl' : l'.order with
            | nil => exact fun _ hkey => absurd hkey List.not_mem_nil
            | cons key keys =>
                obtain ⟨_, _, hlist, -⟩ := bind_eq_ok.mp hrest
                have hfind := hkeys' l' List.mem_cons_self key (hl' ▸ List.mem_cons_self)
                exact absurd hlist (list_taken_key horder hl' hfind)
          exact ⟨hnext, ih hkeys' (fun _ => hnext) hrest⟩

-- ======================================================== the walk

end Build

/-- The expression with field lists after it, each with its mark. -/
def Expr.listed (e : Expr) (lists : List (Nat × FieldList)) : Expr :=
  lists.foldl (fun e l => .fields l.1 e l.2) e

namespace Build

/-- A list is built over its base, which leaves its own level open if it is
a list. -/
theorem expression_fields (catalog : Catalog) (keepOpen : Bool) (mark : Nat) (base : Expr)
    (l : FieldList) :
    expression catalog keepOpen (.fields mark base l) = located mark
      (expression catalog true base >>= fun node =>
        list catalog base.isFields keepOpen node l) := by
  obtain ⟨allBut, order, entries⟩ := l
  rw [expression]
  rfl

/-- Only lists can leave a level open. -/
theorem expression_of_not_fields {e : Expr} (h : e.isFields = false) (keepOpen : Bool) :
    expression catalog keepOpen e = expression catalog false e := by
  cases e with
  | fields mark base l => cases h
  | _ =>
      rw [expression, expression]

/-- A mark changes the fault, and not its cause. -/
theorem located_sameOutcome (mark : Nat) (step : Build Node) :
    SameOutcome (located mark step w) (step w) := by
  unfold located
  cases step w with
  | ok n w => exact .ok n w
  | error f w => exact .error _ _ rfl

/-- Lists that are written one after the other are built in a row. -/
theorem expression_listed (e : Expr) (lists : List (Nat × FieldList)) :
    SameOutcome (expression catalog false (e.listed lists) w)
      ((expression catalog (!lists.isEmpty) e >>= fun n =>
        chain catalog e.isFields n (lists.map Prod.snd)) w) := by
  induction lists generalizing e with
  | nil =>
      show SameOutcome (expression catalog false e w) ((expression catalog false e >>= pure) w)
      rw [bind_pure]
      exact .refl _
  | cons first rest ih =>
      obtain ⟨mark, l⟩ := first
      refine (ih (.fields mark e l)).trans ?_
      have hbase : SameOutcome (expression catalog (!rest.isEmpty) (.fields mark e l) w)
          ((expression catalog true e >>= fun n =>
            list catalog e.isFields (!(rest.map Prod.snd).isEmpty) n l) w) := by
        rw [expression_fields, List.isEmpty_map]
        exact located_sameOutcome mark _
      have hall := hbase.bind fun n u _ => .refl (chain catalog true n (rest.map Prod.snd) u)
      rw [bind_assoc] at hall
      exact hall

/-- Field lists that are built in a row come out as those built one by
one, unless a key after an ordering names a column: then it is looked for
outside of the lists. Where no key is known there, the lists in a row are
built exactly if each of them is built alone and none is such a case. -/
theorem chain_compiles_like_separate (catalog : Catalog) (node : Node) (lists : List FieldList)
    (w : Workspace) :
    (ContinuesAll catalog node lists w →
      SameOutcome (separate catalog node lists w) (chain catalog false node lists w)) ∧
    ((∀ l ∈ lists, ∀ key ∈ l.order, w.context.scopes.find? key.name = none) →
      ∀ n w', chain catalog false node lists w = .ok n w' ↔
        separate catalog node lists w = .ok n w' ∧ ContinuesAll catalog node lists w) ∧
    (∀ (e : Expr) (marked : List (Nat × FieldList)) (w₀ : Workspace), e.isFields = false →
      marked.map Prod.snd = lists → expression catalog false e w₀ = .ok node w →
      SameOutcome (expression catalog false (e.listed marked) w₀)
        (chain catalog false node lists w)) := by
  have hsame (h : ContinuesAll catalog node lists w) :
      SameOutcome (separate catalog node lists w) (chain catalog false node lists w) :=
    chain_sameOutcome (fun hopen => nomatch hopen) (fun hopen => nomatch hopen) h
  refine ⟨hsame, fun hkeys n w' => ⟨fun h => ?_, fun ⟨h, hall⟩ => ?_⟩, ?_⟩
  -- a row that was built has lists that continue each other, so the lists apart
  -- end alike
  · have hrow : chain catalog false node lists (w.kept false node) = .ok n w' := h
    have hall := continuesAll_of_chain hkeys (by rintro ⟨⟩) hrow
    have hboth := hsame hall
    rw [h] at hboth
    generalize separate catalog node lists w = r at hboth
    cases hboth
    exact ⟨rfl, hall⟩
  · have hboth := hsame hall
    rw [h] at hboth
    generalize chain catalog false node lists w = r at hboth
    cases hboth
    rfl
  · rintro e marked w₀ hfields rfl hbase
    -- the walk of the expression is that of its base and then of the lists
    have hwalk : SameOutcome (expression catalog false (e.listed marked) w₀) _ :=
      expression_listed e marked
    rw [expression_of_not_fields hfields, hfields] at hwalk
    refine hwalk.trans ?_
    show SameOutcome (EStateM.bind _ _ w₀) _
    unfold EStateM.bind
    rw [hbase]
    exact .refl _

/-- Rows with two columns. -/
def pairs : Node :=
  .table [⟨"a", .number⟩, ⟨"b", .number⟩] []

/-- A list with nothing but a key. -/
def orderedBy (name : String) : FieldList :=
  ⟨false, [⟨name, false, false, 0⟩], []⟩

/-- A list with one field, a copy of a column. -/
def copyOf (name : String) : FieldList :=
  ⟨false, [], [.computed "copy" 0 (.name 0 name)]⟩

/-- Ordered by one column and then by the other, the rows are not built
in a row. A field may follow the ordering. -/
theorem chain_compiles_like_separate_second_key :
    (∃ n w', separate {} pairs [orderedBy "a", orderedBy "b"] { context := .fresh } = .ok n w') ∧
    (∃ f w', chain {} false pairs [orderedBy "a", orderedBy "b"] { context := .fresh }
      = .error f w') ∧
    ¬ ContinuesAll {} pairs [orderedBy "a", orderedBy "b"] { context := .fresh } ∧
    ∃ n w', chain {} false pairs [orderedBy "a", copyOf "b"] { context := .fresh } = .ok n w' ∧
      separate {} pairs [orderedBy "a", copyOf "b"] { context := .fresh } = .ok n w' := by
  have hkeys : endsWith (fun _ _ => true) (separate {} pairs [orderedBy "a", orderedBy "b"]
      { context := .fresh }) = true := by decide +kernel
  have hrow : endsWith (fun _ _ => true) (chain {} false pairs [orderedBy "a", orderedBy "b"]
      { context := .fresh }) = false := by decide +kernel
  have hfield : endsWith (fun _ _ => true) (separate {} pairs [orderedBy "a", copyOf "b"]
      { context := .fresh }) = true := by decide +kernel
  obtain ⟨n, w', hsep, -⟩ := endsWith_eq_true hkeys
  obtain ⟨f, v, hchain⟩ := endsWith_eq_false hrow
  refine ⟨⟨n, w', hsep⟩, ⟨f, v, hchain⟩, fun hall => ?_, ?_⟩
  · have hsame := (chain_compiles_like_separate {} pairs _ { context := .fresh }).1 hall
    rw [hsep, hchain] at hsame
    cases hsame
  · obtain ⟨n, w', hsep, -⟩ := endsWith_eq_true hfield
    have hall : ContinuesAll {} pairs [orderedBy "a", copyOf "b"] { context := .fresh } := by
      refine fun n w' _ => ⟨?_, fun _ _ _ => ⟨fun _ hnext => (nomatch hnext), trivial⟩⟩
      rintro _ ⟨⟩ -
      exact fun _ hkey => absurd hkey List.not_mem_nil
    have hunknown : ∀ l ∈ [orderedBy "a", copyOf "b"], ∀ key ∈ l.order,
        Scopes.fresh.find? key.name = none := by decide +kernel
    have hexact := (chain_compiles_like_separate {} pairs _ { context := .fresh }).2.1 hunknown n w'
    exact ⟨n, w', hexact.mpr ⟨hsep, hall⟩, hsep⟩

end Build

end RelQuery
