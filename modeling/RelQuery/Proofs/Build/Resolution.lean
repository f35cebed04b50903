/-
Block locals resolve to their own binding.

The walk is followed from point to point, one construct after the other.
At every point the names in the scopes are those that the text has in
force there, and each has its slot (`Keeps`). A name that is used is
looked up from that state, so what it gives is a copy of the value that
the innermost binding of the name was given (`Point.IsResolved`).

All of this rests on the scopes that the statement begins with. No slots
are there yet, so a symbol of a block that an earlier statement has left
open has none, or comes to have the slot of another name.
-/
import RelQuery.Proofs.Build.Binding

namespace RelQuery

open Workspace

namespace Build

variable {α β : Type} {catalog : Catalog} {w w' : Workspace} {ρ : Visible} {names : Names}
  {frames : List FieldFrame}

namespace Traced

-- ===================================================== right points

/-- At every point that the step passes from such a state, bound symbols
have their slots, and the names in the scopes are the names in force. -/
def Keeps (P : Workspace → Prop) (t : Traced α) : Prop :=
  ∀ w, P w → ∀ p, t.points w p → p.state.OwnSlots ∧ p.state.visible = p.visible

namespace Keeps

variable {P : Workspace → Prop} {t : Traced α}

/-- A single step has one point, where it begins. -/
theorem act {step : Build α} : Keeps (fun w => w.Sees ρ frames) (Traced.act ρ step) := by
  rintro w hw p rfl
  exact ⟨hw.own, hw.visible⟩

theorem pure (a : α) : Keeps P (pure a) :=
  fun _ _ _ hp => hp.elim

theorem located {mark : Nat} (h : Keeps P t) : Keeps P (Traced.located mark t) :=
  h

/-- Points of the second step are passed from where the first has led. -/
theorem bind {Q : α → Workspace → Prop} {f : α → Traced β} (h : Keeps P t)
    (hstep : ∀ w a w', P w → t.step w = .ok a w' → Q a w') (hf : ∀ a, Keeps (Q a) (f a)) :
    Keeps P (t >>= f) := by
  intro w hw p hp
  rcases hp with hp | ⟨a, w', ha, hp⟩
  · exact h w hw p hp
  · exact hf a w' (hstep w a w' hw ha) p hp

/-- Nothing comes after the step. -/
theorem map {f : α → β} (h : Keeps P t) : Keeps P (t >>= fun a => Pure.pure (f a)) :=
  h.bind (Q := fun _ _ => True) (fun _ _ _ _ _ => trivial) fun _ => .pure _

/-- After a settled step the same names are in force. -/
theorem settled {f : α → Traced β} (h : Keeps (fun w => w.Sees ρ frames) t) (hstep : Settled t.step)
    (hf : ∀ a, Keeps (fun w => w.Sees ρ frames) (f a)) :
    Keeps (fun w => w.Sees ρ frames) (t >>= f) :=
  h.bind (fun w a w' hw ha => (hstep w a w' ha).sees hw) hf

end Keeps

-- ==================================================== settled steps

section

variable (catalog : Catalog) (ρ : Visible)

theorem orderKeys_same (keys : List OrderKey) : Settled (orderKeys ρ keys).step := by
  rw [orderKeys_step]
  exact orderKeys_settled keys

theorem expression_same (e : Expr) : Settled (expression catalog ρ false e).step := by
  rw [expression_step]
  exact expression_settled catalog e

theorem expressions_same (es : List Expr) : Settled (expressions catalog ρ es).step := by
  rw [expressions_step]
  exact .of_turns (expressions_turns catalog es)

theorem operands_same (steps : List Step) : Settled (operands catalog ρ steps).step := by
  rw [operands_step]
  exact .of_turns (operands_turns catalog steps)

theorem fieldEntries_same (base : DataType) (entries : List FieldEntry) :
    Settled (fieldEntries catalog ρ base entries).step := by
  rw [fieldEntries_step]
  exact .of_lists (fieldEntries_lists catalog entries)

theorem bindingValues_same (bindings : List Binding) :
    Settled (bindingValues catalog ρ bindings).step := by
  rw [bindingValues_step]
  exact .of_turns (bindingValues_turns catalog bindings)

theorem tableRows_same (rows : List (List Binding)) :
    Settled (tableRows catalog ρ rows).step := by
  rw [tableRows_step]
  exact .of_turns (tableRows_turns catalog rows)

end

/-- Every key is looked up from the same names. -/
theorem orderKeys_keeps (keys : List OrderKey) :
    Keeps (fun w => w.Sees ρ frames) (orderKeys ρ keys) := by
  induction keys with
  | nil => exact .pure _
  | cons key rest ih =>
      have hkey : Settled (Build.located key.mark
          (orderKey key.name key.descending key.grouped)) := by
        intro w segment w' h
        exact (orderKey_eq_ok (located_eq_ok.mp h)).1.toWidens.sameNames
      exact Keeps.act.located.settled hkey fun _ => ih.map

/-- Operands are in place before they are joined, so the joins see the same
names. -/
theorem combine_keeps {ω : Type} {join : Node → ω → Node → Traced Node}
    (h : ∀ lhs op rhs, Keeps (fun w => w.Sees ρ frames) (join lhs op rhs))
    (hstep : ∀ lhs op rhs, Settled (join lhs op rhs).step) (g : Grouping ω Node) :
    Keeps (fun w => w.Sees ρ frames) (g.combine join) ∧ Settled (g.combine join).step := by
  induction g with
  | operand n => exact ⟨.pure n, .pure n⟩
  | joined left op right ihleft ihright =>
      obtain ⟨hleft, hleftStep⟩ := ihleft
      obtain ⟨hright, hrightStep⟩ := ihright
      exact ⟨hleft.settled hleftStep fun l => hright.settled hrightStep fun r => h l op r,
        hleftStep.bind fun l => hrightStep.bind fun r => hstep l op r⟩

/-- A chain is joined with the names that its operands have seen. -/
theorem joinChain_keeps (catalog : Catalog) (first : Node)
    (rest : List ((String × Nat) × Node)) :
    Keeps (fun w => w.Sees ρ frames) (joinChain catalog ρ first rest) := by
  have hjoin (lhs : Node) (op : String × Nat) (rhs : Node) :
      Settled (Build.located op.2 (binary catalog op.1 lhs rhs)) :=
    .located (.of_turns (binary_turns catalog op.1 lhs rhs))
  exact (combine_keeps (fun _ _ _ => Keeps.act.located) hjoin _).1

-- ==================================================== lists and blocks

/-- The value of a computed field is built in a level for the base. -/
theorem entry_keeps {base : DataType} {allBut : Bool} {name : String} {mark : Nat} {e : Expr}
    {value : Visible → Traced Node}
    (h : ∀ ρ frames, Keeps (fun w => w.Sees ρ frames) (value ρ))
    (hstep : ∀ ρ, Settled (value ρ).step) :
    Keeps (fun w => w.Sees ρ (⟨base, allBut⟩ :: frames)) (entry ρ base name mark e value) := by
  refine Keeps.act.settled (.of_looks (renameSource?_looks e)) fun source => ?_
  have hbegin (w : Workspace) (u : Unit) (w' : Workspace)
      (hw : w.Sees ρ (⟨base, allBut⟩ :: frames)) (h : beginField w = .ok u w') :
      w'.Sees (typeNames base :: ρ) (⟨base, allBut⟩ :: frames) := by
    obtain ⟨f, rest, hframes, rfl⟩ := beginField_eq_ok h
    rw [hw.frames] at hframes
    obtain ⟨rfl, -⟩ := List.cons.inj hframes
    have hreset : w.SameNames (w.onCounter .resetField) := ⟨rfl, rfl, rfl⟩
    exact (hreset.sees hw).opened base .inherit
  cases source with
  | some source => exact .pure _
  | none =>
      have hfield : Keeps (fun w => w.Sees ρ (⟨base, allBut⟩ :: frames))
          (computedField ρ base name mark value) :=
        Keeps.act.bind hbegin fun _ => (h _ _).settled (hstep _) fun _ => Keeps.act.located
      exact hfield.map

/-- A binding begins without a name of its own. -/
theorem beginLocal_settled : Settled beginLocal := by
  intro w u w' h
  cases h
  exact ⟨rfl, rfl, rfl⟩

/-- A binding adds its name with the value built for it. -/
theorem binding_sees {value : Expr} {name : String} {mark : Nat} {node : Node}
    (hw : w.Sees (names :: ρ) frames)
    (h : (binding (names :: ρ) name mark (expression catalog (names :: ρ) false value)).step w
      = .ok node w') : w'.Sees ((names ++ [(name, some node)]) :: ρ) frames := by
  obtain ⟨u, w₁, hbegin, h⟩ := bind_eq_ok.mp h
  obtain ⟨n, w₂, hn, h⟩ := bind_eq_ok.mp h
  obtain ⟨u', w₃, hbind, h⟩ := bind_eq_ok.mp h
  obtain ⟨rfl, rfl⟩ := pure_eq_ok.mp h
  have hbegun : w.SameNames w₁ := beginLocal_settled w u w₁ hbegin
  cases hbegin
  dsimp only at hn
  rw [expression_step] at hn
  obtain ⟨slots, hgrows, -, -⟩ := (expression_builds catalog false value).turns _ n w₂ hn
  obtain ⟨seen, trackers, htrackers⟩ := List.exists_cons_of_length_eq_add_one hgrows.scopes.trackers
  have hsame : w.SameNames w₂ := hbegun.trans hgrows.toWidens.sameNames
  exact (hsame.sees hw).bound hgrows.pending htrackers (located_eq_ok.mp hbind)

theorem binding_keeps {name : String} {mark : Nat} {value : Traced Node}
    (h : Keeps (fun w => w.Sees ρ frames) value) (hstep : Settled value.step) :
    Keeps (fun w => w.Sees ρ frames) (binding ρ name mark value) :=
  Keeps.act.settled beginLocal_settled fun _ => h.settled hstep fun _ => Keeps.act.located.map

-- ========================================================= the walk

/-- A list has a level of its own, or that of the list before it. -/
theorem fields_keeps {keepOpen : Bool} {base : Expr} {allBut : Bool} {order : List OrderKey}
    {entries : List FieldEntry} {mark : Nat}
    (hbase : Keeps (fun w => w.Sees ρ frames) (expression catalog ρ true base))
    (hentries : ∀ (ρ : Visible) (type : DataType),
      Keeps (fun w => w.Sees ρ (⟨type, allBut⟩ :: frames)) (fieldEntries catalog ρ type entries)) :
    Keeps (fun w => w.Sees ρ frames)
      (expression catalog ρ keepOpen (.fields mark base ⟨allBut, order, entries⟩)) := by
  have hkept (w : Workspace) (node : Node) (w' : Workspace) (hw : w.Sees ρ frames)
      (h : (expression catalog ρ true base).step w = .ok node w') :
      ∃ w₁ : Workspace, w₁.Sees ρ frames ∧ w' = w₁.kept base.isFields node := by
    rw [expression_step] at h
    obtain ⟨w₁, hsame, rfl⟩ := expression_kept true base h
    exact ⟨w₁, hsame.sees hw, rfl⟩
  rw [expression]
  refine Keeps.located (hbase.bind hkept fun node => ?_)
  dsimp only
  have hrest : Keeps (fun w => w.Sees (typeNames (levelType base.isFields node) :: ρ)
        (⟨node.dataType, allBut⟩ :: frames)) (do
      let keys ← orderKeys (typeNames (levelType base.isFields node) :: ρ) order
      let fields ← fieldEntries catalog (typeNames (levelType base.isFields node) :: ρ)
        node.dataType entries
      act (typeNames (levelType base.isFields node) :: ρ)
        (finishFields node keys fields keepOpen)) := by
    refine (orderKeys_keeps order).settled (orderKeys_same _ order) fun keys => ?_
    exact (hentries _ _).settled (fieldEntries_same catalog _ _ entries) fun _ => .act
  -- a base that is itself a list has left its level for this one
  generalize base.isFields = isOpen at hrest ⊢
  rintro w ⟨w₁, hw₁, rfl⟩
  cases isOpen with
  | true =>
      rw [if_pos rfl]
      have hw : (w₁.kept true node).Sees (typeNames (levelType true node) :: ρ) frames :=
        hw₁.opened node.keptType .enabled
      refine Keeps.bind .act ?_ (fun _ => hrest) _ hw
      intro w u w' hw h
      obtain ⟨-, rfl⟩ := chainFields_eq_ok h
      exact ⟨hw.own, hw.visible, congrArg _ hw.frames⟩
  | false =>
      rw [if_neg Bool.false_ne_true]
      refine Keeps.bind .act ?_ (fun _ => hrest) _ hw₁
      intro w u w' hw h
      obtain ⟨-, rfl⟩ := enterFields_eq_ok h
      exact hw.fields node ⟨allBut, [], []⟩ node.dataType

mutual

/-- At every point of an expression names are what the text says. Only
levels change what is in force, and each construct with a level puts its
names in front. -/
theorem expression_keeps (catalog : Catalog) (keepOpen : Bool) :
    ∀ (e : Expr) (ρ : Visible) (frames : List FieldFrame),
      Keeps (fun w => w.Sees ρ frames) (expression catalog ρ keepOpen e)
  -- without parts there is nothing to bind
  | .number _ _, _, _ | .text _ _, _, _ | .bool _ _, _, _ | .time _ _, _, _ => .pure _
  | .name _ _, _, _ | .currentRow _, _, _ => Keeps.act.located
  | .call _ name args, ρ, frames => .located <|
      (expressions_keeps catalog args ρ frames).settled (expressions_same catalog ρ args)
        fun _ => .act
  | .fold _ _ arg, ρ, frames | .not _ arg, ρ, frames | .neg _ arg, ρ, frames
  | .member _ arg _, ρ, frames => .located <|
      (expression_keeps catalog false arg ρ frames).settled (expression_same catalog ρ arg)
        fun _ => .act
  | .chain _ first steps, ρ, frames => by
      have hfirst := expression_keeps catalog false first ρ frames
      have hsteps := operands_keeps catalog steps ρ frames
      refine .located (hfirst.settled (expression_same catalog ρ first) fun n => ?_)
      exact hsteps.settled (operands_same catalog ρ steps) fun ops => joinChain_keeps catalog n ops
  | .restrict _ base predicate, ρ, frames => by
      have hbase := expression_keeps catalog false base ρ frames
      refine .located (hbase.settled (expression_same catalog ρ base) fun node => ?_)
      -- the predicate sees the columns of its base in front of all else
      have hopen (w : Workspace) (u : Unit) (w' : Workspace) (hw : w.Sees ρ frames)
          (h : enterRestrict node w = .ok u w') :
          w'.Sees (typeNames node.dataType :: ρ) frames := by
        obtain ⟨-, rfl⟩ := enterRestrict_eq_ok h
        exact hw.opened node.dataType .disabled
      refine Keeps.act.bind hopen fun _ => ?_
      exact (expression_keeps catalog false predicate _ frames).settled
        (expression_same catalog _ predicate) fun _ => .act
  | .fields mark base ⟨allBut, order, entries⟩, ρ, frames =>
      fields_keeps (expression_keeps catalog true base ρ frames) fun ρ type =>
        fieldEntries_keeps catalog entries ρ type allBut frames
  | .row _ bindings, ρ, frames => .located <|
      (bindingValues_keeps catalog bindings ρ frames).settled
        (bindingValues_same catalog ρ bindings) fun _ => .act
  | .table _ rows, ρ, frames => .located <|
      (tableRows_keeps catalog rows ρ frames).settled (tableRows_same catalog ρ rows) fun _ => .act
  | .emptyTable _ columns, _, _ => .located Keeps.act.map
  | .block _ bindings body, ρ, frames => by
      -- the block opens a scope that is still empty; each binding adds its name
      have hopen (w : Workspace) (first : Nat) (w' : Workspace) (hw : w.Sees ρ frames)
          (h : enterBlock w = .ok first w') : w'.Sees ([] :: ρ) frames := by
        cases h
        exact hw.block .inherit
      refine .located (Keeps.act.bind hopen fun first => ?_)
      refine blockBindings_keeps catalog bindings ρ frames [] _ fun names => ?_
      exact (expression_keeps catalog false body _ frames).settled (expression_same catalog _ body)
        fun _ => .act

theorem expressions_keeps (catalog : Catalog) :
    ∀ (es : List Expr) (ρ : Visible) (frames : List FieldFrame),
      Keeps (fun w => w.Sees ρ frames) (expressions catalog ρ es)
  | [], _, _ => .pure _
  | e :: rest, ρ, frames => by
      have hfirst := expression_keeps catalog false e ρ frames
      have hrest := expressions_keeps catalog rest ρ frames
      exact hfirst.settled (expression_same catalog ρ e) fun _ => hrest.map

theorem operands_keeps (catalog : Catalog) :
    ∀ (steps : List Step) (ρ : Visible) (frames : List FieldFrame),
      Keeps (fun w => w.Sees ρ frames) (operands catalog ρ steps)
  | [], _, _ => .pure _
  | ⟨_, _, operand⟩ :: rest, ρ, frames => by
      have hfirst := expression_keeps catalog false operand ρ frames
      have hrest := operands_keeps catalog rest ρ frames
      exact hfirst.settled (expression_same catalog ρ operand) fun _ => hrest.map

/-- A field sees the columns of its list's base. -/
theorem fieldEntries_keeps (catalog : Catalog) :
    ∀ (entries : List FieldEntry) (ρ : Visible) (base : DataType) (allBut : Bool)
      (frames : List FieldFrame), Keeps (fun w => w.Sees ρ (⟨base, allBut⟩ :: frames))
        (fieldEntries catalog ρ base entries)
  | [], _, _, _, _ => .pure _
  | .plain _ _ :: rest, ρ, base, allBut, frames =>
      (fieldEntries_keeps catalog rest ρ base allBut frames).map
  | .computed name mark value :: rest, ρ, base, allBut, frames => by
      have hfirst : Keeps (fun w => w.Sees ρ (⟨base, allBut⟩ :: frames))
          (entry ρ base name mark value fun ρ => expression catalog ρ false value) :=
        entry_keeps (expression_keeps catalog false value) fun ρ => expression_same catalog ρ value
      have hentry : Settled (entry ρ base name mark value fun ρ =>
          expression catalog ρ false value).step := by
        rw [entry_step catalog ρ (expression_step catalog false value)]
        exact fieldEntry_settled catalog name mark value
      have hrest := fieldEntries_keeps catalog rest ρ base allBut frames
      exact hfirst.settled hentry fun _ => hrest.map

theorem bindingValues_keeps (catalog : Catalog) :
    ∀ (bindings : List Binding) (ρ : Visible) (frames : List FieldFrame),
      Keeps (fun w => w.Sees ρ frames) (bindingValues catalog ρ bindings)
  | [], _, _ => .pure _
  | ⟨_, value⟩ :: rest, ρ, frames => by
      have hfirst := expression_keeps catalog false value ρ frames
      have hrest := bindingValues_keeps catalog rest ρ frames
      exact hfirst.settled (expression_same catalog ρ value) fun _ => hrest.map

theorem tableRows_keeps (catalog : Catalog) :
    ∀ (rows : List (List Binding)) (ρ : Visible) (frames : List FieldFrame),
      Keeps (fun w => w.Sees ρ frames) (tableRows catalog ρ rows)
  | [], _, _ => .pure _
  | bindings :: rest, ρ, frames => by
      have hfirst := bindingValues_keeps catalog bindings ρ frames
      have hrest := tableRows_keeps catalog rest ρ frames
      exact hfirst.settled (bindingValues_same catalog ρ bindings) fun _ => hrest.map

/-- What comes after the bindings of a block sees them all. -/
theorem blockBindings_keeps (catalog : Catalog) :
    ∀ (bindings : List Binding) (ρ : Visible) (frames : List FieldFrame) (names : Names)
      (rest : Names → Traced Node)
      (_ : ∀ names, Keeps (fun w => w.Sees (names :: ρ) frames) (rest names)),
      Keeps (fun w => w.Sees (names :: ρ) frames) (blockBindings catalog ρ names bindings rest)
  | [], _, _, names, _, h => h names
  | ⟨name, value⟩ :: bindings, ρ, frames, names, rest, h => by
      have hvalue := expression_keeps catalog false value (names :: ρ) frames
      have hfirst : Keeps (fun w => w.Sees (names :: ρ) frames)
          (binding (names :: ρ) name value.mark (expression catalog (names :: ρ) false value)) :=
        binding_keeps hvalue (expression_same catalog _ value)
      exact hfirst.bind (fun w node w' hw hnode => binding_sees hw hnode) fun node =>
        blockBindings_keeps catalog bindings ρ frames _ rest h

end

/-- A declared type is looked up in the catalog and brings no names. -/
theorem returns_settled (catalog : Catalog) (returns : Option TypeExpr) :
    Settled (match returns with
      | none => pure none
      | some t => match typeOf catalog t with
        | .ok type => pure (some type)
        | .error f => throw f : Build (Option DataType)) := by
  cases returns with
  | none => exact .pure none
  | some t =>
      dsimp only
      cases typeOf catalog t with
      | ok type => exact .pure (some type)
      | error f => exact fun _ _ _ h => nomatch h

/-- Parameters are in force in the body of a definition, and nothing else
is. -/
theorem sentence_keeps (catalog : Catalog) (s : Sentence) (ρ : Visible)
    (frames : List FieldFrame) : Keeps (fun w => w.Sees ρ frames) (sentence catalog ρ s) := by
  cases s with
  | expression value =>
      exact (expression_keeps catalog false value ρ frames).map
  | assign mark name value =>
      exact (expression_keeps catalog false value ρ frames).settled
        (expression_same catalog ρ value) fun _ => Keeps.act.located
  | define mark name params returns body =>
      refine Keeps.act.settled (.of_looks (heading_looks catalog params)) fun columns => ?_
      refine Keeps.act.settled (returns_settled catalog returns) fun type => ?_
      have hopen (w : Workspace) (u : Unit) (w' : Workspace) (hw : w.Sees ρ frames)
          (h : Build.located mark (enterDefine name columns) w = .ok u w') :
          w'.Sees (columnNames columns :: ρ) frames := by
        obtain rfl := enterDefine_eq_ok (located_eq_ok.mp h)
        exact hw.seeded columns .enabled (by simp)
      refine Keeps.act.located.bind hopen fun _ => ?_
      exact (expression_keeps catalog false body _ frames).settled (expression_same catalog _ body)
        fun _ => Keeps.act.located
  | typeDef mark name supertype components => exact .act

/-- From the first point of a statement to its last one. -/
theorem statement_keeps (catalog : Catalog) (s : Sentence) (ρ : Visible)
    (frames : List FieldFrame) : Keeps (fun w => w.Sees ρ frames) (statement catalog ρ s) := by
  have hnothing : Settled (pure () : Build Unit) := .pure ()
  have hsentence : Settled (sentence catalog ρ s).step := by
    rw [sentence_step]
    intro w st w' h
    obtain ⟨⟨slots, hgrows⟩, -⟩ := statement_eq_ok h
    exact hgrows.toWidens.sameNames
  refine Keeps.act.settled hnothing fun _ => ?_
  refine (sentence_keeps catalog s ρ frames).settled hsentence fun st => ?_
  exact Keeps.act.map

end Traced

end Build

-- ========================================================= a use

/-- The second tree is the first one with other slots. -/
inductive Node.IsCopy : Node → Node → Prop
  | of_operands {n n' : Node} (hbare : n'.bare = n.bare)
    (hoperands : List.Forall₂ IsCopy n.operands n'.operands) : IsCopy n n'

namespace Workspace

variable {w : Workspace}

/-- Names are looked up in the symbols of a scope in turn. -/
theorem lookup_names (locals : List LocalSlot) (symbols : List Symbol) (name : String) :
    (names locals symbols).lookup name
      = (symbols.find? (·.name == name)).map (valueOf locals) := by
  induction symbols with
  | nil => rfl
  | cons symbol rest ih =>
      show List.lookup name ((symbol.name, valueOf locals symbol) :: names locals rest) = _
      rw [List.find?_cons, List.lookup_cons]
      by_cases hname : symbol.name = name
      · rw [hname, beq_self_eq_true]
        rfl
      · rw [beq_eq_false_iff_ne.mpr hname, beq_eq_false_iff_ne.mpr (Ne.symm hname)]
        exact ih

/-- A name means what the innermost symbol of that name stands for. -/
theorem meaning?_visible (w : Workspace) (name : String) :
    w.visible.meaning? name = (w.context.scopes.find? name).map (valueOf w.locals) := by
  unfold Build.Visible.meaning? visible Scopes.find?
  rw [List.findSome?_map, List.map_findSome?]
  congr 1
  funext scope
  exact lookup_names w.locals scope.symbols name

end Workspace

namespace Build

/-- What is right at a point: every symbol of a block binding has its
slot, and the names in the scopes are those in force. So a name that a
binding has given a value stands for a copy of this value. -/
structure Point.IsResolved (catalog : Catalog) (p : Point) : Prop where
  slots : p.state.OwnSlots
  names : p.state.visible = p.visible
  uses : ∀ name value, p.visible.meaning? name = some (some value) → ∃ scopes,
    useName catalog name p.state
      = (relocate value >>= fun copy => pure (.inlined name copy))
          { p.state with context := { p.state.context with scopes } }
  copies : ∀ name value, p.visible.meaning? name = some (some value) → ∀ n w',
    useName catalog name p.state = .ok n w' → ∃ copy, n = .inlined name copy ∧ value.IsCopy copy

variable {catalog : Catalog} {w : Workspace}

/-- A use copies what the slot of the name holds, with its reads noted. -/
theorem useName_bound (catalog : Catalog) {name : String} {value : Node}
    (h : w.visible.meaning? name = some (some value)) : ∃ scopes, useName catalog name w
      = (relocate value >>= fun copy => pure (.inlined name copy))
          { w with context := { w.context with scopes } } := by
  rw [meaning?_visible] at h
  obtain ⟨symbol, hfind, hvalue⟩ := Option.map_eq_some_iff.mp h
  obtain rfl := Scopes.find?_name hfind
  unfold valueOf at hvalue
  -- the name stands for a slot, which holds the value
  split at hvalue
  · rename_i slot hkind
    obtain ⟨bound, hslot, rfl⟩ := Option.map_eq_some_iff.mp hvalue
    have hresolve : resolve symbol.name w = .ok (w.context.scopes.resolve symbol.name).1
        { w with context := { w.context with
          scopes := (w.context.scopes.resolve symbol.name).2 } } := rfl
    rw [Scopes.resolve_eq, hfind] at hresolve
    refine ⟨bound.reads.foldl (fun s r => s.record r.column r.level)
      (w.context.scopes.recordAll (w.context.scopes.readOf symbol.name)), ?_⟩
    rw [useName]
    show EStateM.bind (resolve symbol.name) _ w = _
    rw [EStateM.bind, hresolve]
    dsimp only
    rw [useSymbol, hkind]
    dsimp only
    rw [useLocal, get_bind_apply, hslot]
    rfl
  · cases hvalue

/-- Where names and slots are right, so are the uses. -/
theorem Point.IsResolved.of_slots (catalog : Catalog) {p : Point} (hslots : p.state.OwnSlots)
    (hnames : p.state.visible = p.visible) : p.IsResolved catalog where
  slots := hslots
  names := hnames
  uses := by
    intro name value h
    rw [← hnames] at h
    exact useName_bound catalog h
  copies := by
    intro name value h n w' hn
    rw [← hnames] at h
    obtain ⟨scopes, huse⟩ := useName_bound catalog h
    rw [huse] at hn
    obtain ⟨copy, w₁, hcopy, hn⟩ := bind_eq_ok.mp hn
    obtain ⟨rfl, rfl⟩ := pure_eq_ok.mp hn
    exact ⟨copy, rfl, (relocate_related (fun _ _ => .of_operands) hcopy).2⟩

/-- A block local resolves to its own binding. The statement is built
from whatever scopes there are, and no slots. Then at every point of the
walk each symbol of a block binding has a slot of its own name and type,
and the use of a name in force puts in a copy of the value that was built
for its innermost binding, if and only if no symbol of a block binding
is there to begin with. -/
theorem locals_resolve_to_own_binding_unless_left_open (catalog : Catalog) (context : Context)
    (s : Sentence) :
    (Traced.statement catalog (visible { context }) s).step = statement catalog s ∧
    ((∀ p, (Traced.statement catalog (visible { context }) s).points { context } p →
        p.IsResolved catalog) ↔
      ∀ scope ∈ context.scopes.all, ∀ symbol ∈ scope.symbols, ∀ slot,
        symbol.kind ≠ .bound slot) := by
  refine ⟨Traced.statement_step catalog _ s, fun h => ?_, fun h p hp => ?_⟩
  · intro scope hscope symbol hsymbol slot hslot
    -- the walk begins at a point without slots
    have hfirst := (h ⟨{ context }, _⟩ (.inl rfl)).slots
    obtain ⟨bound, hbound, -⟩ := hfirst scope hscope symbol hsymbol slot hslot
    cases hbound
  · have hsees : Sees { context } (visible { context }) [] := by
      refine ⟨fun scope hscope symbol hsymbol slot hslot => ?_, rfl, rfl⟩
      exact absurd hslot (h scope hscope symbol hsymbol slot)
    obtain ⟨hslots, hnames⟩ := Traced.statement_keeps catalog s _ [] _ hsees p hp
    exact .of_slots catalog hslots hnames

/-- A block whose body fails. -/
def leftOpen : Sentence :=
  .expression (.block 0 [⟨"x", .bool 9 true⟩] (.name 15 "z"))

/-- Whether a failed step leaves a symbol for the first slot. -/
def leavesLocal {α : Type} : EStateM.Result BuildFault Workspace α → Bool
  | .ok .. => false
  | .error _ w => w.context.scopes.all.any fun scope => scope.symbols.any (·.kind == .bound 0)

/-- In the body the local means its value. When the body has failed, the
block is still open, and its local has no slot at some point of the next
statement. -/
theorem locals_resolve_to_own_binding_unless_left_open_block :
    (∃ p, (Traced.statement {} (visible { context := .fresh }) leftOpen).points
        { context := .fresh } p ∧
      p.visible.meaning? "x" = some (some (.literal (.bool true))) ∧ p.IsResolved {}) ∧
    ∃ f w', statement {} leftOpen { context := .fresh } = .error f w' ∧
      ∃ p, (Traced.statement {} (visible { context := w'.context })
        (.expression (.name 0 "x"))).points { context := w'.context } p ∧ ¬p.IsResolved {} := by
  constructor
  · have hfresh := (locals_resolve_to_own_binding_unless_left_open {} .fresh leftOpen).2.mpr (by
      intro scope hscope symbol hsymbol
      obtain rfl := List.mem_singleton.mp hscope
      exact absurd hsymbol List.not_mem_nil)
    -- the first point of the body, after its one binding
    have hbody : (Traced.statement {} (visible { context := .fresh }) leftOpen).points
        { context := .fresh } ⟨_, _⟩ :=
      .inr ⟨_, _, rfl, .inl (.inl (.inr ⟨_, _, rfl, .inr ⟨_, _, rfl, .inl rfl⟩⟩))⟩
    exact ⟨_, hbody, rfl, hfresh _ hbody⟩
  · have hrun : leavesLocal (statement {} leftOpen { context := .fresh }) = true := by
      decide +kernel
    generalize statement {} leftOpen { context := .fresh } = r at hrun ⊢
    cases r with
    | ok st w' => cases hrun
    | error f w' =>
        obtain ⟨scope, hscope, hsymbols⟩ := List.any_eq_true.mp hrun
        obtain ⟨symbol, hsymbol, hkind⟩ := List.any_eq_true.mp hsymbols
        refine ⟨f, w', rfl, Classical.byContradiction fun hnone => ?_⟩
        have hall := (locals_resolve_to_own_binding_unless_left_open {} w'.context
          (.expression (.name 0 "x"))).2.mp fun p hp => not_not.mp fun h => hnone ⟨p, hp, h⟩
        exact hall scope hscope symbol hsymbol 0 (beq_iff_eq.mp hkind)

end Build

end RelQuery
