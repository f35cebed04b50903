/-
Segments that look at neighbouring rows.

Whether a segment is windowed is read off a flag of the counter in
force. A builtin call that looks at neighbouring rows sets it; a field
begins with the flag cleared, a binding of a block puts back the one
from before, and a use of the binding sets it again for every such call
in the copy. `Marks` says what this comes to: between two moments in one
field the flag has been set exactly if the trees made meanwhile contain
such a call in their own code. A counter that refuses folds refuses the
calls as well.

Calls of user functions are not noted, whatever their definitions do. So
a segment is windowed exactly if a builtin of that kind is called in its
own code; a user function that is windowed, called in a field without
such a builtin, leaves the field with another kind, and is accepted
where windows are refused.
-/
import RelQuery.Proofs.Build.Closing
import RelQuery.Proofs.Build.Reading

namespace RelQuery

open Workspace
open Node (Wrap Everywhere)

namespace Node

/-- A builtin call that looks at neighbouring rows. -/
def isWindow : Node → Bool
  | .call link _ _ _ => link.windowed
  | _ => false

/-- The code of the trees has a builtin call that looks at neighbouring
rows. -/
def windows (nodes : List Node) : Bool :=
  anyOwn isWindow nodes

/-- The code of several trees calls what that of one of them does. -/
theorem windows_cons (n : Node) (rest : List Node) :
    windows (n :: rest) = (windows [n] || windows rest) := by
  simp [windows, anyOwn]

theorem windows_append (xs ys : List Node) : windows (xs ++ ys) = (windows xs || windows ys) :=
  List.any_append

theorem windows_singleton (n : Node) : windows [n] = (n.isWindow || windows n.operands) := by
  rw [windows, anyOwn, List.any_cons, List.any_nil, Bool.or_false, any_own]
  rfl

theorem isWindow_bare (n : Node) : n.bare.isWindow = n.isWindow := by
  cases n <;> rfl

theorem IsPlain.isWindow_eq {n : Node} (h : n.IsPlain) : n.isWindow = false := by
  cases n <;> first | rfl | cases h

theorem IsList.isWindow_eq {n : Node} (h : n.IsList) : n.isWindow = false := by
  cases n <;> first | rfl | cases h

end Node

/-- The segment is windowed exactly if its own code has a builtin call
that looks at neighbouring rows. -/
def Segment.IsClassified (s : Segment) : Prop :=
  s.kind = .window ↔ Node.windows [s.body] = true

/-- A segment is classified by the flag that it is made with. -/
theorem Segment.isClassified_make {name : String} {body : Node} {lookup : Heading} {accums : Nat}
    {hasWindow : Bool} (h : hasWindow = Node.windows [body]) :
    (Segment.make name body lookup accums hasWindow).IsClassified := by
  show SegmentKind.classify lookup accums hasWindow = .window ↔ Node.windows [body] = true
  rw [← h]
  cases hasWindow with
  | true => exact ⟨fun _ => rfl, fun _ => rfl⟩
  | false =>
      constructor
      · intro hkind
        unfold SegmentKind.classify at hkind
        split at hkind
        · assumption
        · split at hkind
          · cases hkind
          · split at hkind
            · cases hkind
            · cases hkind
      · intro hfalse
        cases hfalse

/-- A load calls nothing. -/
theorem Segment.IsLoad.isClassified {s : Segment} (h : s.IsLoad) : s.IsClassified := by
  obtain ⟨name, type, hbody, -, hkind⟩ := h
  rw [IsClassified, hbody, hkind]
  constructor
  · intro h
    cases h
  · intro h
    cases h

namespace Node

/-- The predicate of a restriction. -/
def predicate? : Node → Option Segment
  | .restrict _ predicate => some predicate
  | _ => none

/-- A call with further arguments that looks at neighbouring rows. -/
def isVariadicWindow : Node → Bool
  | .variadic link _ _ => link.windowed
  | _ => false

theorem IsList.predicate_eq {n : Node} (h : n.IsList) : n.predicate? = none := by
  cases n <;> first | rfl | cases h

theorem IsList.isVariadicWindow_eq {n : Node} (h : n.IsList) : n.isVariadicWindow = false := by
  cases n <;> first | rfl | cases h

/-- A call of a windowed operator or function. -/
def isWindowedCall : Node → Bool
  | .call link _ _ _ | .variadic link _ _ | .function link _ _ _ => link.windowed
  | _ => false

/-- A call of a user function. -/
def isFunction : Node → Bool
  | .function .. => true
  | _ => false

/-- The code of the tree calls a windowed builtin. -/
def CallsBuiltinWindow (n : Node) : Prop :=
  ∃ m ∈ n.own, m.isWindowedCall = true ∧ m.isFunction = false

/-- The code of the tree calls a windowed user function. -/
def CallsFunctionWindow (n : Node) : Prop :=
  ∃ m ∈ n.own, m.isWindowedCall = true ∧ m.isFunction = true

/-- A windowed call is one of a builtin or one of a user function. -/
theorem exists_windowedCall_iff {n : Node} : (∃ m ∈ n.own, m.isWindowedCall = true) ↔
    n.CallsBuiltinWindow ∨ n.CallsFunctionWindow := by
  constructor
  · rintro ⟨m, hm, hwindowed⟩
    cases hfunction : m.isFunction with
    | false => exact .inl ⟨m, hm, hwindowed, hfunction⟩
    | true => exact .inr ⟨m, hm, hwindowed, hfunction⟩
  · rintro (⟨m, hm, hwindowed, -⟩ | ⟨m, hm, hwindowed, -⟩)
    · exact ⟨m, hm, hwindowed⟩
    · exact ⟨m, hm, hwindowed⟩

/-- The segments of the node are classified; a predicate looks at no
neighbouring rows, and neither does a call with further arguments. -/
structure IsSorted (n : Node) : Prop where
  segments : ∀ s ∈ n.segments, s.IsClassified
  predicate : ∀ p ∈ n.predicate?, windows [p.body] = false
  variadic : n.isVariadicWindow = false

theorem isSorted_bare {n : Node} : n.bare.IsSorted ↔ n.IsSorted := by
  have hpredicate : n.bare.predicate? = n.predicate? := by cases n <;> rfl
  have hvariadic : n.bare.isVariadicWindow = n.isVariadicWindow := by cases n <;> rfl
  constructor
  · rintro ⟨hs, hp, hv⟩
    exact ⟨by rwa [segments_bare] at hs, by rwa [hpredicate] at hp, by rwa [hvariadic] at hv⟩
  · rintro ⟨hs, hp, hv⟩
    exact ⟨by rwa [segments_bare], by rwa [hpredicate], by rwa [hvariadic]⟩

/-- In a sorted node all windowed calls but those of user functions are
noted. -/
theorem IsSorted.isWindow_iff {n : Node} (h : n.IsSorted) :
    n.isWindow = true ↔ n.isWindowedCall = true ∧ n.isFunction = false := by
  have hvariadic := h.variadic
  cases n <;> simp_all [isWindow, isWindowedCall, isFunction, isVariadicWindow]

/-- In a sorted tree the flag tells of all windowed builtins. -/
theorem windows_iff {n : Node} (h : n.Everywhere IsSorted) :
    windows [n] = true ↔ n.CallsBuiltinWindow := by
  rw [windows, anyOwn, List.any_cons, List.any_nil, Bool.or_false, List.any_eq_true]
  constructor
  · rintro ⟨m, hm, hwindow⟩
    exact ⟨m, hm, (h m (mem_nodes_of_own hm)).isWindow_iff.mp hwindow⟩
  · rintro ⟨m, hm, hwindow⟩
    exact ⟨m, hm, (h m (mem_nodes_of_own hm)).isWindow_iff.mpr hwindow⟩

/-- Plain nodes call no window, so there are as many as before. -/
theorem Wrap.windows_eq {given made : List Node} (h : Wrap given made) :
    windows made = windows given := by
  induction h with
  | perm h => exact h.symm.any_eq
  | node h => rw [windows_singleton, h.isWindow_eq, Bool.false_or]
  | drop v => rfl
  | append _ _ ih ih' => rw [windows_append, windows_append, ih, ih']
  | trans _ _ ih ih' => rw [ih', ih]

/-- A node that holds no segment is sorted. -/
theorem isSorted_of_segments {n : Node} (hsegments : n.segments = [])
    (hvariadic : n.isVariadicWindow = false) : n.IsSorted := by
  refine ⟨?_, ?_, hvariadic⟩
  · rw [hsegments]
    exact fun _ h => absurd h List.not_mem_nil
  · cases n with
    | restrict base p => cases hsegments
    | _ => exact fun _ h => nomatch h

theorem IsPlain.isSorted (n : Node) (h : n.IsPlain) : n.IsSorted := by
  refine isSorted_of_segments h.segments_eq ?_
  cases n <;> first | rfl | exact h

/-- A copy has the calls of the value that was copied, and is sorted if
the value is. -/
theorem copy_sorted {n n' : Node} (hbare : n'.bare = n.bare)
    (hoperands : List.Forall₂ (fun m m' => windows [m'] = windows [m] ∧
      (m.Everywhere IsSorted → m'.Everywhere IsSorted)) n.operands n'.operands) :
    windows [n'] = windows [n] ∧ (n.Everywhere IsSorted → n'.Everywhere IsSorted) := by
  constructor
  · rw [windows_singleton, windows_singleton, ← isWindow_bare n', hbare, isWindow_bare]
    congr 1
    generalize n.operands = ms at hoperands
    generalize n'.operands = ms' at hoperands
    induction hoperands with
    | nil => rfl
    | cons h _ ih => rw [windows_cons, h.1, ih, ← windows_cons]
  · exact everywhere_of_bare (fun _ => isSorted_bare) hbare (hoperands.imp fun _ _ h => h.2)

end Node

-- ========================================================== the flag

/-- Between two moments the flag of the counter in force has been set if
`mark` says so, which it does not where folds are refused. -/
structure Flags (w w' : Workspace) (mark : Bool) : Prop where
  enabled : w'.counter.enabled = w.counter.enabled
  window : w'.counter.hasWindow = (w.counter.hasWindow || mark)
  refused : w.counter.enabled = false → mark = false
  locals : w'.locals = w.locals

namespace Flags

variable {w w' w'' : Workspace} {mark mark' : Bool}

/-- A step that leaves the counter and the bound values alone sets no flag. -/
theorem of_same (hcounter : w'.counter = w.counter) (hlocals : w'.locals = w.locals) :
    Flags w w' false :=
  ⟨by rw [hcounter], by rw [hcounter, Bool.or_false], fun _ => rfl, hlocals⟩

theorem trans (h : Flags w w' mark) (h' : Flags w' w'' mark') : Flags w w'' (mark || mark') where
  enabled := h'.enabled.trans h.enabled
  window := by rw [h'.window, h.window, Bool.or_assoc]
  refused := fun hw => by rw [h.refused hw, h'.refused (h.enabled.trans hw), Bool.or_false]
  locals := h'.locals.trans h.locals

end Flags

/-- All bound values are sorted. -/
def Workspace.IsSorted (w : Workspace) : Prop :=
  ∀ l ∈ w.locals, l.value.Everywhere Node.IsSorted

/-- The flag has been set exactly if a windowed call is among the trees
made meanwhile; and these are sorted if all trees were that were there
before. -/
structure Marks (w : Workspace) (given : List Node) (w' : Workspace) (made : List Node) : Prop where
  flags : ∃ mark, Flags w w' mark ∧ Node.windows made = (Node.windows given || mark)
  sorted : w.IsSorted → Node.AllHave Node.IsSorted given → Node.AllHave Node.IsSorted made

namespace Marks

variable {w w' w'' : Workspace} {given made more : List Node}

/-- Only what was made meanwhile can be bound. -/
theorem isSorted (h : Marks w given w' made) (hw : w.IsSorted) : w'.IsSorted := by
  obtain ⟨mark, hflags, -⟩ := h.flags
  unfold Workspace.IsSorted
  rwa [hflags.locals]

theorem wrap (w : Workspace) (h : Wrap given made) : Marks w given w made where
  flags := ⟨false, .of_same rfl rfl, by rw [Bool.or_false, h.windows_eq]⟩
  sorted := fun _ => h.allHave Node.IsPlain.isSorted

/-- Calls made earlier are among the trees that the next step is given. -/
theorem trans (h : Marks w given w' made) (h' : Marks w' made w'' more) :
    Marks w given w'' more where
  flags := by
    obtain ⟨mark, hflags, hwindows⟩ := h.flags
    obtain ⟨mark', hflags', hwindows'⟩ := h'.flags
    exact ⟨mark || mark', hflags.trans hflags', by rw [hwindows', hwindows, Bool.or_assoc]⟩
  sorted := fun hw hg => h'.sorted (h.isSorted hw) (h.sorted hw hg)

/-- Trees that are not looked at have been marked before. -/
theorem frame (others : List Node) (h : Marks w given w' made) :
    Marks w (others ++ given) w' (others ++ made) where
  flags := by
    obtain ⟨mark, hflags, hwindows⟩ := h.flags
    refine ⟨mark, hflags, ?_⟩
    rw [Node.windows_append, Node.windows_append, hwindows, Bool.or_assoc]
  sorted := fun hw hg => by
    obtain ⟨hothers, hgiven⟩ := List.forall_mem_append.mp hg
    exact List.forall_mem_append.mpr ⟨hothers, h.sorted hw hgiven⟩

/-- A node around the given trees that has set the flag if it calls for
it. -/
theorem node {n : Node} (hflags : Flags w w' n.isWindow) (hbound : n.bound = [])
    (hsegments : n.segments = []) (hvariadic : n.isVariadicWindow = false) :
    Marks w n.operands w' [n] where
  flags := ⟨n.isWindow, hflags, by rw [Node.windows_singleton, Bool.or_comm]⟩
  sorted := fun _ hg =>
    Node.allHave_singleton.mpr (Node.everywhere_of_operands hbound hsegments
      (Node.isSorted_of_segments hsegments hvariadic) hg)

end Marks

namespace Build

variable {catalog : Catalog} {w w' : Workspace}

-- ============================================================= calls

/-- Handing out slots leaves the flag alone. -/
theorem allocate_flags {name : String} {n slot : Nat} (h : allocate name n w = .ok slot w') :
    Flags w w' false := by
  obtain ⟨-, -, rfl⟩ := allocate_eq_ok h
  refine ⟨?_, ?_, fun _ => rfl, rfl⟩
  · rw [counter_onCounter]
    rfl
  · rw [counter_onCounter, Bool.or_false]
    rfl

/-- Handing out the slots of a call leaves the flag alone. -/
theorem allocateFor_flags {link : Signature} {slot : Option Nat}
    (h : allocateFor link w = .ok slot w') : Flags w w' false := by
  unfold allocateFor at h
  split at h
  · cases h
    exact .of_same rfl rfl
  · obtain ⟨first, w₁, hfirst, h⟩ := bind_eq_ok.mp h
    cases h
    exact allocate_flags hfirst

/-- A copy that has slots gets them as a call does. -/
theorem reallocate_flags {link : Signature} {slot slot' : Option Nat}
    (h : reallocate link slot w = .ok slot' w') : Flags w w' false := by
  unfold reallocate at h
  split at h
  · exact allocateFor_flags h
  · cases h
    exact .of_same rfl rfl

/-- The flag is set for the call that asks for it. -/
theorem noteWindow_flags {link : Signature} {u : Unit} (h : noteWindow link w = .ok u w') :
    Flags w w' link.windowed := by
  unfold noteWindow at h
  split at h
  · rename_i hwindowed
    obtain ⟨hon, rfl⟩ := markWindow_eq_ok h
    rw [hwindowed]
    refine ⟨?_, ?_, fun hoff => ?_, rfl⟩
    · rw [counter_onCounter]
    · rw [counter_onCounter, Bool.or_true]
    · rw [hoff] at hon
      cases hon
  · rename_i hwindowed
    cases h
    rw [eq_false_of_ne_true hwindowed]
    exact .of_same rfl rfl

/-- A builtin that looks at neighbouring rows sets the flag. -/
theorem builtin_marks (link : Signature) (args : List Node) (type : DataType) :
    Relates Marks args (noteWindow link >>= fun _ => allocateFor link >>= fun slot =>
      pure (.call link args type slot)) fun n => [n] := by
  intro w n w' h
  obtain ⟨u, w₁, hnote, h⟩ := bind_eq_ok.mp h
  obtain ⟨slot, w₂, hslot, h⟩ := bind_eq_ok.mp h
  cases h
  have hflags := (noteWindow_flags hnote).trans (allocateFor_flags hslot)
  rw [Bool.or_false] at hflags
  exact Marks.node (n := .call link args type slot) hflags rfl rfl rfl

/-- A user function sets no flag, even if it is windowed. -/
theorem function_marks (link : Signature) (args : List Node) (type : DataType) :
    Relates Marks args (allocateFor link >>= fun slot => pure (.function link args type slot))
      fun n => [n] := by
  intro w n w' h
  obtain ⟨slot, w₁, hslot, h⟩ := bind_eq_ok.mp h
  cases h
  exact Marks.node (n := .function link args type slot) (allocateFor_flags hslot) rfl rfl rfl

/-- A fold sets no flag. -/
theorem fold_marks (op : String) (arg : Node) (type : DataType) :
    Relates Marks [arg] (allocate "fold" 1 >>= fun slot => pure (.fold op slot arg type))
      fun n => [n] := by
  intro w n w' h
  obtain ⟨slot, w₁, hslot, h⟩ := bind_eq_ok.mp h
  cases h
  exact Marks.node (n := .fold op slot arg type) (allocate_flags hslot) rfl rfl rfl

-- ============================================================= names

/-- A node that is copied sets the flag again. -/
theorem rebuild_flags {n n' : Node} {ns : List Node} (h : rebuild n ns w = .ok n' w') :
    Flags w w' n.isWindow := by
  cases n with
  | call link args type slot =>
      obtain ⟨u, w₁, hnote, h⟩ := bind_eq_ok.mp h
      obtain ⟨slot', w₂, hslot, h⟩ := bind_eq_ok.mp h
      cases h
      have hflags := (noteWindow_flags hnote).trans (reallocate_flags hslot)
      rwa [Bool.or_false] at hflags
  | function link args type slot =>
      obtain ⟨slot', w₁, hslot, h⟩ := bind_eq_ok.mp h
      cases h
      exact reallocate_flags hslot
  | fold op slot arg type =>
      obtain ⟨slot', w₁, hslot, h⟩ := bind_eq_ok.mp h
      cases h
      exact allocate_flags hslot
  | _ =>
      cases h
      exact .of_same rfl rfl

/-- Copies set the flag for each window that they call. -/
theorem InRow.flags {ms ns : List Node}
    (h : InRow (fun w n _ w' => Flags w w' (Node.windows [n])) w ms ns w') :
    Flags w w' (Node.windows ms) := by
  induction h with
  | nil w => exact .of_same rfl rfl
  | cons hn _ ih =>
      rw [Node.windows_cons]
      exact hn.trans ih

/-- A copy sets the flag for each window that it calls. -/
theorem relocate_flags {n n' : Node} (h : relocate n w = .ok n' w') :
    Flags w w' (Node.windows [n]) := by
  refine relocate_induction (P := fun w n _ w' => Flags w w' (Node.windows [n])) ?_ h
  intro w w₁ w' n n' ns hoperands hbuilt
  rw [Node.windows_singleton, Bool.or_comm]
  exact hoperands.flags.trans (rebuild_flags hbuilt)

/-- A use of a block binding marks the windowed calls of the copy. -/
theorem useLocal_marks (name : String) (slot : Nat) :
    Relates Marks [] (useLocal name slot) fun n => [n] := by
  intro w n w' h
  obtain ⟨bound, copy, hbound, rfl, hcopy⟩ := useLocal_steps h
  -- noting the reads of the value sets no flag
  have hreads : Flags w (w.reread bound) false := .of_same rfl rfl
  have hflags := hreads.trans (relocate_flags hcopy)
  -- the copy has the windows of the value, and is sorted like it
  obtain ⟨-, hwindows, hsorted⟩ := relocate_related (R := fun m m' =>
    Node.windows [m'] = Node.windows [m] ∧
      (m.Everywhere Node.IsSorted → m'.Everywhere Node.IsSorted))
    (fun _ _ => Node.copy_sorted) hcopy
  refine ⟨⟨_, hflags, ?_⟩, fun hw _ => Node.allHave_singleton.mpr ?_⟩
  · show Node.windows [.inlined name copy] = (false || (false || Node.windows [bound.value]))
    rw [Node.windows_singleton, Bool.false_or, Bool.false_or, ← hwindows]
    rfl
  · refine Node.everywhere_of_operands rfl rfl (Node.isSorted_of_segments rfl rfl)
      (Node.allHave_singleton.mpr (hsorted ?_))
    exact hw bound (List.mem_of_getElem? hbound)

/-- A variable calls nothing. -/
theorem variable_marks (name : String) (source : VariableSource) (type : DataType) :
    Relates Marks [] (pure (.variable name source type)) fun n => [n] := by
  intro w n w' h
  cases h
  exact Marks.node (n := .variable name source type) (.of_same rfl rfl) rfl rfl rfl

/-- Only a binding is copied, all else is loaded. -/
theorem useSymbol_marks (symbol : Symbol) :
    Relates Marks [] (useSymbol symbol) fun n => [n] := by
  unfold useSymbol
  split
  · exact variable_marks _ _ _
  · exact variable_marks _ _ _
  · exact variable_marks _ _ _
  · exact variable_marks _ _ _
  · exact useLocal_marks _ _
  · exact .throw _

/-- What the catalog holds is loaded. -/
theorem useGlobal_marks (catalog : Catalog) (name : String) :
    Relates Marks [] (useGlobal catalog name) fun n => [n] := by
  unfold useGlobal
  split
  · split
    · exact variable_marks _ _ _
    · exact variable_marks _ _ _
    · exact .throw _
  · split
    · exact .throw _
    · exact .throw _

/-- Finding a name changes scopes only. -/
theorem resolve_marks (name : String) : Relates Marks [] (resolve name) fun _ => [] := by
  intro w found w' h
  cases h
  exact ⟨⟨false, .of_same rfl rfl, rfl⟩, fun _ => id⟩

/-- A name is found in the scopes or in the catalog. -/
theorem useName_marks (catalog : Catalog) (name : String) :
    Relates Marks [] (useName catalog name) fun n => [n] := by
  refine .bind (R := Marks) .trans (resolve_marks name) fun found => ?_
  cases found with
  | some symbol => exact useSymbol_marks symbol
  | none => exact useGlobal_marks catalog name

/-- The row being looked at reads every column, and calls nothing. -/
theorem currentRow_marks : Relates Marks [] currentRow fun n => [n] := by
  -- resolving the columns one by one marks nothing
  have hreads (names : List String) : Relates Marks [] (forIn names PUnit.unit fun name _ =>
      discard (resolve name) >>= fun _ => pure (ForInStep.yield PUnit.unit)) fun _ => [] := by
    induction names with
    | nil =>
        intro w u w' h
        cases h
        exact .wrap w (.refl [])
    | cons name names ih =>
        intro w u w' h
        rw [List.forIn_cons] at h
        obtain ⟨next, w₁, hnext, h⟩ := bind_eq_ok.mp h
        obtain ⟨v, w₂, hdiscard, hnext⟩ := bind_eq_ok.mp hnext
        obtain ⟨found, hresolve⟩ := discard_eq_ok.mp hdiscard
        cases hnext
        exact (resolve_marks name w found w₁ hresolve).trans (ih w₁ u w' h)
  -- without a row there is nothing to show
  intro w n w' h
  rw [currentRow, get_bind_apply] at h
  cases hheading : w.context.scopes.heading? with
  | none =>
      rw [hheading] at h
      exact absurd h fail_ne_ok
  | some heading =>
      rw [hheading] at h
      obtain ⟨u, w₁, hloop, h⟩ := bind_eq_ok.mp h
      cases h
      refine (hreads _ w u w' hloop).trans ?_
      exact Marks.node (n := .currentRow (.tuple heading)) (.of_same rfl rfl) rfl rfl rfl

-- ============================================================ levels

/-- A predicate is built where windows are refused. -/
theorem restrict_marks (base : Node) (predicate : Expr)
    (h : Relates Marks [] (expression catalog false predicate) fun n => [n]) :
    Relates Marks [base] (enterRestrict base >>= fun _ => expression catalog false predicate >>=
      fun p => restrict base p) fun n => [n] := by
  intro w n w' hn
  obtain ⟨p, w₂, captured, -, hp, hleave, rfl⟩ := restriction_steps hn
  obtain ⟨slots, w₃, hgrows, -, -, rfl⟩ := expression_builds catalog false predicate _ p w₂ hp
  obtain ⟨hcounters, hlocals⟩ := leave_counters rfl hgrows.toWidens hleave
  obtain ⟨-, hcounter⟩ := leave_own rfl hgrows.toWidens hleave
  obtain ⟨⟨mark, hflags, hwindows⟩, hsorted⟩ := h _ p w₂ hp
  -- the level refuses folds, so nothing has been marked in it
  obtain rfl : mark = false := hflags.refused rfl
  have hflag : w₂.counter.hasWindow = false := hflags.window
  have hcounter' : w'.counter = w.counter := by rw [Workspace.counter, Workspace.counter, hcounters]
  refine ⟨⟨false, .of_same hcounter' hlocals, ?_⟩, fun hw hg => ?_⟩
  · rw [Bool.or_false]
    exact Node.windows_singleton _
  · rw [Node.allHave_singleton] at hg ⊢
    have hbody := Node.allHave_singleton.mp (hsorted hw Node.allHave_nil)
    rw [hcounter, Option.getD_some, hflag, Node.everywhere_iff]
    refine ⟨⟨List.forall_mem_singleton.mpr (Segment.isClassified_make hwindows.symm), ?_, rfl⟩,
      List.forall_mem_singleton.mpr hg, fun _ h => absurd h List.not_mem_nil,
      List.forall_mem_singleton.mpr hbody⟩
    rintro _ ⟨⟩
    exact hwindows

/-- Bound values are sorted. -/
def BindsSorted (catalog : Catalog) (bindings : List Binding) : Prop :=
  ∀ w u w', blockBindings catalog bindings w = .ok u w' → w.IsSorted → w'.IsSorted

/-- A binding adds its value to those bound, with what was read for it. -/
theorem bindLocal_locals {name : String} {value : Node} {u : Unit}
    (h : bindLocal name value w = .ok u w') :
    ∃ reads, w'.locals = w.locals ++ [⟨name, value, reads⟩] := by
  rw [bindLocal, get_bind_apply] at h
  obtain ⟨reads, w₁, hreads, h⟩ := bind_eq_ok.mp h
  obtain ⟨u₁, w₂, hrestore, h⟩ := bind_eq_ok.mp h
  rw [get_bind_apply] at h
  obtain ⟨scopes, w₃, hadd, h⟩ := bind_eq_ok.mp h
  obtain ⟨-, rfl⟩ := ofExcept_eq_ok.mp hadd
  have hlocals : w₂.locals = w.locals := by
    cases hreads
    cases hrestore
    dsimp only
    split
    · rfl
    · rfl
  cases h
  exact ⟨_, congrArg (· ++ _) hlocals⟩

/-- A binding is sorted as its value is. -/
theorem bindsSorted_cons {name : String} {value : Expr} {rest : List Binding}
    (h : Relates Marks [] (expression catalog false value) fun n => [n])
    (hrest : BindsSorted catalog rest) : BindsSorted catalog (⟨name, value⟩ :: rest) := by
  intro w u w' hu hw
  obtain ⟨u₂, w₃, hrun, hu⟩ := blockBindings_steps hu
  obtain ⟨n, w₂, hvalue, hbind⟩ := binding_steps hrun
  refine hrest w₃ u w' hu ?_
  have hw₁ : w.binding.IsSorted := hw
  have hmarks := h _ n w₂ hvalue
  obtain ⟨reads, hlocals⟩ := bindLocal_locals hbind
  unfold Workspace.IsSorted
  rw [hlocals, List.forall_mem_append, List.forall_mem_singleton]
  exact ⟨hmarks.isSorted hw₁, Node.allHave_singleton.mp (hmarks.sorted hw₁ Node.allHave_nil)⟩

/-- A block marks what its body does; its bindings have put back the
flag. -/
theorem block_marks {bindings : List Binding} {body : Expr}
    (hbindings : BindsSorted catalog bindings)
    (h : Relates Marks [] (expression catalog false body) fun n => [n]) :
    Relates Marks [] (enterBlock >>= fun first => blockBindings catalog bindings >>= fun _ =>
      expression catalog false body >>= fun n => block first n) fun n => [n] := by
  intro w n w' hn
  obtain ⟨u, w₂, value, w₃, captured, w₄, hbind, hvalue, hleave, rfl, rfl⟩ := block_steps hn
  -- a block has no counter of its own: it inherits the one around it
  have hbinds := blockBindings_binds catalog bindings _ u w₂ hbind
  obtain ⟨slots, w₀, hgrows, -, -, rfl⟩ := expression_builds catalog false body _ value w₃ hvalue
  have hcounters : w₃.context.counters
      = (w.context.counters.push .inherit).update fun _ => w₃.counter := by
    rw [hgrows.counters, hbinds.counters]
    rfl
  -- so leaving keeps what the body has counted
  obtain ⟨hcounter, hlocals⟩ := leave_inherited hcounters hleave
  have hstart : w₂.counter = w.counter := by
    rw [Workspace.counter, hbinds.counters]
    rfl
  obtain ⟨more, hmore⟩ := hbinds.locals
  have hall : w₄.locals = w.locals ++ more := by
    rw [hlocals, hgrows.locals, ← hmore]
    rfl
  have hmarks := h w₂ value w₃ hvalue
  obtain ⟨mark, hflags, hwindows⟩ := hmarks.flags
  -- first the flags of the workspace, then the marks in the tree
  refine ⟨⟨mark, ⟨?_, ?_, ?_, ?_⟩, ?_⟩, fun hw _ => ?_⟩
  · show w₄.counter.enabled = _
    rw [hcounter, hflags.enabled, hstart]
  · show w₄.counter.hasWindow = _
    rw [hcounter, hflags.window, hstart]
  · rw [← hstart]
    exact hflags.refused
  · show w₄.locals.take _ = _
    rw [hall]
    exact List.take_left
  · rw [Node.windows_singleton]
    exact hwindows
  · have hw₂ : w₂.IsSorted := hbindings _ u w₂ hbind hw
    rw [Node.allHave_singleton, Node.everywhere_iff]
    -- the block itself has no segments and runs no window
    refine ⟨⟨fun _ h => absurd h List.not_mem_nil, (fun _ h => nomatch h), rfl⟩,
      hmarks.sorted hw₂ Node.allHave_nil, fun bound hbound => ?_,
      fun _ h => absurd h List.not_mem_nil⟩
    rw [Node.bound, List.map_map] at hbound
    obtain ⟨l, hl, rfl⟩ := List.mem_map.mp hbound
    rw [hlocals] at hl
    exact hmarks.isSorted hw₂ l (List.mem_of_mem_drop hl)

-- ======================================================= field lists

/-- The fields of a list are classified. -/
def SortsFields (w : Workspace) (segments : List Segment) (_ : Workspace) : Prop :=
  w.IsSorted → ∀ s ∈ segments, s.IsClassified ∧ s.body.Everywhere Node.IsSorted

/-- A field begins with the flag cleared, so that at its end the flag
tells about the field. -/
theorem computedField_sorts {name : String} {mark : Nat} {value : Expr} {segment : Segment}
    (h : Relates Marks [] (expression catalog false value) fun n => [n]) (hw : w.IsSorted)
    (hs : computedField catalog name mark value w = .ok segment w') :
    (segment.IsClassified ∧ segment.body.Everywhere Node.IsSorted) ∧ w'.IsSorted := by
  obtain ⟨f, frames, node, w₂, captured, -, hnode, hleave, rfl⟩ := field_steps hs
  have hmarks := h _ node w₂ hnode
  obtain ⟨mark, hflags, hwindows⟩ := hmarks.flags
  have hcleared : ((w.onCounter .resetField).opened f.base .inherit).counter.hasWindow
      = false := by
    show (w.onCounter .resetField).counter.hasWindow = false
    rw [counter_onCounter]
    rfl
  have hflag : w₂.counter.hasWindow = Node.windows [node] := by
    rw [hflags.window, hcleared, hwindows]
    rfl
  have hbody := hmarks.sorted hw Node.allHave_nil
  refine ⟨⟨Segment.isClassified_make hflag, Node.allHave_singleton.mp hbody⟩, ?_⟩
  obtain ⟨parent, scopes, entry, entries, -, -, -, rfl⟩ := leave_eq_ok hleave
  exact hmarks.isSorted hw

/-- The expression marks what its tree does, in the level around the one
that it may leave open. -/
def BuildsMarks (catalog : Catalog) (keepOpen : Bool) (e : Expr) : Prop :=
  ∀ w n w', expression catalog keepOpen e w = .ok n w' →
    ∃ w₁, Marks w [] w₁ [n] ∧ Leaves (keepOpen && e.isFields) w₁ w'

/-- A list closes the fields as they were counted, each with a flag of its
own. -/
theorem fields_marks {keepOpen : Bool} {mark : Nat} {base : Expr} {allBut : Bool}
    {order : List OrderKey} {entries : List FieldEntry} (hbase : BuildsMarks catalog true base)
    (hentries : RelatesFields catalog SortsFields entries) :
    BuildsMarks catalog keepOpen (.fields mark base ⟨allBut, order, entries⟩) := by
  intro w n w' hn
  obtain ⟨node, w₁, hnode, hlist⟩ := bind_eq_ok.mp (located_eq_ok.mp hn)
  obtain ⟨w₀, hmarks, hleft⟩ := hbase w node w₁ hnode
  -- what the list has built in: a scope over the base, its keys and its entries
  obtain ⟨t, keys, fields, w₂, w₃, -, hkeys, hfields, hfinish⟩ := list_run hleft hlist
  obtain ⟨hgrows, -⟩ := orderKeys_eq_ok hkeys
  obtain ⟨slots, hwidens, -, -⟩ := fieldEntries_lists catalog entries w₂ fields w₃ hfields
  have hlevel := hgrows.toWidens.trans hwidens
  obtain ⟨⟨captured, w₄, hleave, hleaves⟩, hover⟩ := finishFields_leaves hlevel hfinish
  -- leaving the scope drops its counter, so the flags are those of the base
  obtain ⟨hcounters, hlocals⟩ :=
    leave_counters rfl (Widens.dropFrame (w := w₀.opened t .enabled) hlevel) hleave
  have hcounter : w₄.counter = w₀.counter := by
    rw [Workspace.counter, Workspace.counter, hcounters]
  rw [Expr.isFields, Bool.and_true]
  -- the mark of the whole, then the segments one by one
  refine ⟨w₄, hmarks.trans ⟨⟨false, .of_same hcounter hlocals, ?_⟩, fun hw hg => ?_⟩, hleaves⟩
  · rw [Node.windows_singleton, hover.isList.isWindow_eq, hover.operands, Bool.or_comm]
  · have hw₂ : w₂.IsSorted := by
      unfold Workspace.IsSorted
      rw [hgrows.locals]
      exact hw
    have hcomputed := hentries w₂ fields w₃ hfields hw₂
    have hload (s : Segment) (hs : s.IsLoad) :
        s.IsClassified ∧ s.body.Everywhere Node.IsSorted := by
      refine ⟨hs.isClassified, ?_⟩
      obtain ⟨name, type, hbody, -, -⟩ := hs
      rw [hbody]
      exact Node.everywhere_of_operands rfl rfl (Node.isSorted_of_segments rfl rfl) Node.allHave_nil
    have hsegments : ∀ s ∈ n.segments, s.IsClassified ∧ s.body.Everywhere Node.IsSorted := by
      intro s hs
      -- a segment orders, computes what was listed, or loads what was not
      rcases hover.segments s hs with horder | hs | hs
      · exact hload s (orderKeys_load hkeys s horder)
      · exact hcomputed s hs
      · exact hload s hs
    rw [Node.allHave_singleton, Node.everywhere_iff, hover.operands, hover.isList.bound_eq]
    refine ⟨⟨fun s hs => (hsegments s hs).1, ?_, hover.isList.isVariadicWindow_eq⟩, hg,
      fun _ h => absurd h List.not_mem_nil, fun s hs => (hsegments s hs).2⟩
    rw [hover.isList.predicate_eq]
    intro p hp
    cases hp

/-- The flag is followed through every expression. -/
def windowDiscipline (catalog : Catalog) : Discipline catalog where
  Makes := Relates Marks
  Builds := BuildsMarks catalog
  Binds := BindsSorted catalog
  Lists := RelatesFields catalog SortsFields
  pure := fun h w a w' ha => by
    obtain ⟨rfl, rfl⟩ := pure_eq_ok.mp ha
    exact .wrap w h
  throw := Relates.throw
  bind := Relates.bind .trans
  frame := fun others h w a w' ha => (h w a w' ha).frame others
  located := fun _ => Relates.located
  uncallable := fun _ => Relates.uncallable
  builtin := builtin_marks
  function := function_marks
  fold := fold_marks
  name := useName_marks catalog
  currentRow := currentRow_marks
  restrict := restrict_marks
  binds_nil := fun w u w' h hw => by
    cases h
    exact hw
  binds_cons := bindsSorted_cons
  block := block_marks
  lists_nil := .nil fun _ _ _ h => absurd h List.not_mem_nil
  lists_plain := .plain
  lists_computed := fun h hrest => hrest.computed fun hsegment hothers hw => by
    obtain ⟨hfield, hw'⟩ := computedField_sorts h hw hsegment
    exact List.forall_mem_cons.mpr ⟨hfield, hothers hw'⟩
  closed := fun {keepOpen e} hfields h w n w' hn => by
    rw [hfields, Bool.and_false]
    exact ⟨w', h w n w' hn, rfl⟩
  makes := fun h w n w' hn => by
    obtain ⟨w₁, hmarks, rfl⟩ := h w n w' hn
    exact hmarks
  fields := fields_marks

-- ================================================== whole statements

variable {s : Statement}

/-- The tree of a statement is sorted, with no window at the top where
the context refuses them; and so is the body of a definition, whose
function is windowed if the body is. -/
structure Sorts (c : Context) (s : Statement) : Prop where
  root : ∀ root ∈ s.root?, root.Everywhere Node.IsSorted
  top : c.counters.current.enabled = false → ∀ value,
    s = .expression value ∨ (∃ name, s = .assign name value) → Node.windows [value] = false
  body : ∀ name link body, s = .define name link body →
    body.IsClassified ∧ link.windowed = Node.windows [body.body]

/-- The body of a definition stands where the context allows folds. -/
theorem define_sorts {e : Expr} {name : String} {params : Heading} {returns : Option DataType}
    {mark : Nat} (hw : w.IsSorted)
    (h : (located mark (enterDefine name params) >>= fun _ => expression catalog false e >>=
      fun n => located mark (define name params returns n)) w = .ok s w') : Sorts w.context s := by
  obtain ⟨body, w₂, captured, link, hbody, hleave, -, hlink, rfl⟩ := definition_steps h
  obtain ⟨slots, w₃, hgrows, -, -, rfl⟩ := expression_builds catalog false e _ body w₂ hbody
  obtain ⟨-, hcounter⟩ := leave_own rfl hgrows.toWidens hleave
  have hmarks := (windowDiscipline catalog).expression e _ body w₂ hbody
  obtain ⟨flag, hflags, hwindows⟩ := hmarks.flags
  rw [hcounter, Option.getD_some] at hlink ⊢
  -- the level of the parameters began with the flag cleared
  have hflag : w₂.counter.hasWindow = Node.windows [body] := by
    rw [hflags.window, hwindows]
    rfl
  refine ⟨?_, ?_, ?_⟩
  · rintro root ⟨⟩
    exact Node.allHave_singleton.mp (hmarks.sorted hw Node.allHave_nil)
  · rintro - value (hvalue | ⟨_, hvalue⟩)
    · cases hvalue
    · cases hvalue
  · rintro _ _ _ ⟨⟩
    exact ⟨Segment.isClassified_make hflag, hlink.trans hflag⟩

/-- A statement is sorted as its expression is. -/
theorem statement_sorts {c : Context} {sentence : Sentence}
    (h : statement catalog sentence { context := c } = .ok s w') : Sorts c s := by
  -- there are no locals to begin with
  have hw : Workspace.IsSorted { context := c } := fun _ hl => absurd hl List.not_mem_nil
  have hbuilt {e : Expr} {node : Node} {w₁ : Workspace}
      (hnode : expression catalog false e { context := c } = .ok node w₁) :
      node.Everywhere Node.IsSorted ∧
        (c.counters.current.enabled = false → Node.windows [node] = false) := by
    have hmarks := (windowDiscipline catalog).expression e _ node w₁ hnode
    obtain ⟨flag, hflags, hwindows⟩ := hmarks.flags
    exact ⟨Node.allHave_singleton.mp (hmarks.sorted hw Node.allHave_nil),
      fun hoff => hwindows.trans (hflags.refused hoff)⟩
  -- a definition opens a level of its own; the others are built at the top
  rcases statement_cases h with ⟨e, node, hnode, rfl⟩ | ⟨e, node, name, w₁, hnode, hs⟩ |
    ⟨e, mark, name, params, returns, hs⟩ | ⟨user, rfl, rfl⟩
  · refine ⟨?_, ?_, fun _ _ _ hs => nomatch hs⟩
    · rintro root ⟨⟩
      exact (hbuilt hnode).1
    · rintro hoff value (⟨⟨⟩⟩ | ⟨_, ⟨⟩⟩)
      exact (hbuilt hnode).2 hoff
  · obtain ⟨-, rfl⟩ := assign_looks catalog name node w₁ s w' hs
    refine ⟨?_, ?_, fun _ _ _ hs => nomatch hs⟩
    · rintro root ⟨⟩
      exact (hbuilt hnode).1
    · rintro hoff value (⟨⟨⟩⟩ | ⟨_, ⟨⟩⟩)
      exact (hbuilt hnode).2 hoff
  · exact define_sorts hw hs
  · refine ⟨(fun _ hroot => nomatch hroot), ?_, fun _ _ _ hs => nomatch hs⟩
    rintro - value (⟨⟨⟩⟩ | ⟨_, ⟨⟩⟩)

/-- Every segment of the statement is classified, and its body
sorted. -/
theorem Sorts.segments {c : Context} (h : Sorts c s) :
    ∀ segment ∈ s.segments, segment.IsClassified ∧ segment.body.Everywhere Node.IsSorted := by
  refine s.forall_segments (fun root hroot n hn segment hsegment => ?_) fun name link body hs => ?_
  · have hsorted := h.root root hroot
    refine ⟨(hsorted n hn).segments segment hsegment, fun m hm => hsorted m ?_⟩
    exact Node.mem_nodes_trans hn
      (Node.mem_nodes_iff.mpr (.inr (.inr (.inr ⟨segment, hsegment, hm⟩))))
  · subst hs
    exact ⟨(h.body name link body rfl).1, h.root body.body rfl⟩

/-- Where windows are refused the step makes no call of a windowed
builtin. -/
def Refuses (w : Workspace) (_ : List Node) (_ : Workspace) (made : List Node) : Prop :=
  w.counter.enabled = false → ∀ n ∈ made, n.isWindowedCall = true → n.isFunction = true

/-- Where windows are refused, so is the call of a builtin that has one. -/
theorem callBuiltin_refuses {name : String} {symbol : Symbol}
    (hs : Builtin.find? name = some symbol)
    {types : List DataType} {r : Resolved} (hr : symbol.resolve types = .ok r) (args : List Node) :
    Relates Refuses args (callBuiltin r.call args r.type) fun n => [n] := by
  -- no builtin of many arguments is windowed
  have hvariadic (hkind : r.call.kind = .variadic ∨ r.call.kind = .variadicTable) :
      Relates Refuses args (pure (.variadic r.call args r.type)) fun n => [n] := by
    intro w n w' h hoff m hm hwindow
    cases h
    obtain rfl := List.mem_singleton.mp hm
    have hwindowed : r.call.windowed = true := hwindow
    rw [Builtin.windowed_of_variadic hs hr hkind] at hwindowed
    cases hwindowed
  -- a windowed one notes its window first, and that is refused
  have hfixed : Relates Refuses args (noteWindow r.call >>= fun _ => allocateFor r.call >>=
      fun slot => pure (.call r.call args r.type slot)) fun n => [n] := by
    intro w n w' h hoff m hm hwindow
    obtain rfl := List.mem_singleton.mp hm
    obtain ⟨u, w₁, hnote, h⟩ := bind_eq_ok.mp h
    obtain ⟨slot, w₂, -, h⟩ := bind_eq_ok.mp h
    cases h
    have hwindowed : r.call.windowed = true := hwindow
    rw [(noteWindow_flags hnote).refused hoff] at hwindowed
    cases hwindowed
  rw [callBuiltin_eq]
  split
  · exact .throw _
  · exact hvariadic (.inl ‹_›)
  · exact hvariadic (.inr ‹_›)
  · exact hfixed
  · exact hfixed

/-- Where windows are refused no call of a windowed builtin is
accepted. -/
theorem call_refuses (catalog : Catalog) (name : String) (args : List Node) :
    Relates Refuses args (call catalog name args) fun n => [n] := by
  -- a function of the catalog is no window, and neither is a selector
  have hfunction (link : Signature) (type : DataType) : Relates Refuses args
      (allocateFor link >>= fun slot => pure (.function link args type slot)) fun n => [n] := by
    intro w n w' h hoff m hm hwindow
    obtain rfl := List.mem_singleton.mp hm
    obtain ⟨slot, w₁, -, h⟩ := bind_eq_ok.mp h
    cases h
    rfl
  have hselector (user : UserType) :
      Relates Refuses args (pure (.selector user args)) fun n => [n] := by
    intro w n w' h hoff m hm hwindow
    cases h
    obtain rfl := List.mem_singleton.mp hm
    cases hwindow
  -- the cases are those of the lookup: a builtin, an entry of the catalog, or
  -- nothing
  unfold call
  split
  · intro w n w' h
    obtain ⟨r, w₁, hresolve, h⟩ := bind_eq_ok.mp h
    obtain ⟨hr, rfl⟩ := ofExcept_eq_ok.mp hresolve
    exact callBuiltin_refuses ‹_› hr args w n w' h
  · split
    · unfold callEntry
      split
      · intro w n w' h
        obtain ⟨r, w₁, hr, h⟩ := bind_eq_ok.mp h
        obtain ⟨-, rfl⟩ := ofExcept_eq_ok.mp hr
        exact hfunction r.call r.type w n w' h
      · split
        · unfold select
          split
          · exact .throw _
          · split
            · exact .throw _
            · exact hselector _
        · exact .throw _
      · exact .throw _
    · exact .uncallable name

/-- A user function without slots is called whatever the counter in
force allows. -/
theorem call_function {name : String} {args : List Node} {symbol : Symbol} {r : Resolved}
    (hbuiltin : Builtin.find? name = none) (hsymbol : catalog.find? name = some symbol)
    (hkind : symbol.kind = .deferred) (hr : symbol.resolve (args.map Node.dataType) = .ok r)
    (haccums : r.call.accums = 0) (w : Workspace) :
    call catalog name args w = .ok (.function r.call args r.type none) w := by
  unfold call callEntry allocateFor
  rw [hbuiltin, hsymbol]
  dsimp only
  rw [hkind, hr]
  dsimp only
  show (ofExcept BuildError.type (.ok r) >>= _) w = _
  rw [ofExcept, pure_bind, if_pos haccums]
  rfl

/-- Segments are windowed for their builtin calls alone: a segment of a
statement has that kind exactly if its own code calls a windowed
builtin, so it has it whenever a windowed call is there unless all such
calls are of user functions; a function is windowed exactly if its body
is. Where windows are refused, in a predicate as at the top, no windowed
builtin is called. A user function that takes no slots is called there as
anywhere else, whether it is windowed or not. -/
theorem statement_classifies_builtin_windows {c : Context} {sentence : Sentence}
    (h : statement catalog sentence { context := c } = .ok s w') :
    (∀ segment ∈ s.segments,
      (segment.kind = .window ↔ segment.body.CallsBuiltinWindow) ∧
      ((segment.kind = .window ↔ ∃ n ∈ segment.body.own, n.isWindowedCall = true) ↔
        (segment.body.CallsFunctionWindow → segment.body.CallsBuiltinWindow))) ∧
    (∀ name link body, s = .define name link body →
      (link.windowed = true ↔ body.kind = .window)) ∧
    (∀ root ∈ s.root?, ∀ base predicate, .restrict base predicate ∈ root.nodes →
      ¬ predicate.body.CallsBuiltinWindow) ∧
    (c.counters.current.enabled = false → ∀ value,
      s = .expression value ∨ (∃ name, s = .assign name value) → ¬ value.CallsBuiltinWindow) ∧
    (∀ name args w n w', w.counter.enabled = false → call catalog name args w = .ok n w' →
      n.isWindowedCall = true → n.isFunction = true) ∧
    (∀ name args symbol r w, Builtin.find? name = none → catalog.find? name = some symbol →
      symbol.kind = .deferred → symbol.resolve (args.map Node.dataType) = .ok r →
      r.call.accums = 0 →
      call catalog name args w = .ok (.function r.call args r.type none) w) := by
  have hsorts := statement_sorts h
  refine ⟨fun segment hsegment => ?_, fun name link body hs => ?_, fun root hroot base p hp => ?_,
    fun hoff value hvalue => ?_, fun name args w n w' hoff hn =>
      call_refuses catalog name args w n w' hn hoff n List.mem_cons_self,
    fun _ _ _ _ w hbuiltin hsymbol hkind hr haccums =>
      call_function hbuiltin hsymbol hkind hr haccums w⟩
  -- the kind of a segment was noted while its body was built
  · obtain ⟨hclassified, hsorted⟩ := hsorts.segments segment hsegment
    have hkind : segment.kind = .window ↔ segment.body.CallsBuiltinWindow :=
      hclassified.trans (Node.windows_iff hsorted)
    refine ⟨hkind, ?_⟩
    rw [hkind, Node.exists_windowedCall_iff]
    tauto
  -- and so was that of a function
  · obtain ⟨hclassified, hlink⟩ := hsorts.body name link body hs
    rw [hlink]
    exact hclassified.symm
  -- in a predicate windows are refused
  · have hsorted := hsorts.root root hroot
    rw [← Node.windows_iff fun m hm => hsorted m (Node.mem_nodes_trans hp
      (Node.mem_nodes_iff.mpr (.inr (.inr (.inr ⟨p, List.mem_cons_self, hm⟩))))),
      (hsorted _ hp).predicate p rfl]
    exact Bool.false_ne_true
  -- at the top they are refused if the counter of the context refuses them
  · have hroot : value ∈ s.root? := by
      rcases hvalue with rfl | ⟨name, rfl⟩
      · rfl
      · rfl
    rw [← Node.windows_iff (hsorts.root value hroot), hsorts.top hoff value hvalue]
    exact Bool.false_ne_true

/-- A catalog with a function of one number that looks at neighbouring
rows. -/
def lagging : Catalog :=
  Catalog.addFunction {}
    { name := "f", returns := .number, args := [⟨"x", .number⟩], variadic := none, accums := 0
      windowed := true, kind := .deferred }

/-- A field that calls the function. -/
def laggedField : Sentence :=
  .expression (.fields 21 (.emptyTable 0 [("a", .named "number" 8)]) ⟨false, [],
    [.computed "x" 22 (.call 27 "f" [.name 29 "a"])]⟩)

/-- The field is not windowed, although the function is. -/
theorem statement_classifies_builtin_windows_lagged_field :
    ∃ s w', statement lagging laggedField { context := .fresh } = .ok s w' ∧
      ∃ segment ∈ s.segments, segment.kind ≠ .window ∧ segment.body.CallsFunctionWindow ∧
        ¬ (segment.kind = .window ↔ ∃ n ∈ segment.body.own, n.isWindowedCall = true) := by
  have hrun : endsWith (fun s _ => s.segments.any fun segment => segment.kind == .rowwise &&
      segment.body.own.any fun n => n.isWindowedCall && n.isFunction)
      (statement lagging laggedField { context := .fresh }) = true := by decide +kernel
  obtain ⟨s, w', hr, hcheck⟩ := endsWith_eq_true hrun
  obtain ⟨segment, hsegment, hcheck⟩ := List.any_eq_true.mp hcheck
  obtain ⟨hkind, hcall⟩ := Bool.and_eq_true_iff.mp hcheck
  obtain ⟨n, hn, hcall⟩ := List.any_eq_true.mp hcall
  have hfunction : segment.body.CallsFunctionWindow := ⟨n, hn, Bool.and_eq_true_iff.mp hcall⟩
  have hother : segment.kind ≠ .window := by
    rw [beq_iff_eq.mp hkind]
    exact SegmentKind.noConfusion
  obtain ⟨hbuiltin, hexact⟩ := (statement_classifies_builtin_windows hr).1 segment hsegment
  refine ⟨s, w', hr, segment, hsegment, hother, hfunction, fun hboth => ?_⟩
  exact hother (hbuiltin.mpr (hexact.mp hboth hfunction))

end Build

end RelQuery
