/-
Levels that open and close.

A level that refuses folds or counts its own leaves the counters around
it alone; a level that inherits passes every slot on. Either way,
closing it takes away what opening it has put there, and the scopes
around it have at most noted reads. So a piece of building between the
two is again a step that leaves the workspace as it was.

How the steps of a restriction, a binding and a block follow one another
is said once (`restriction_steps`, `binding_steps`, `block_steps`), and
what is shown of these constructs starts from there.
-/
import RelQuery.Build.Constructor
import RelQuery.Build.Field
import RelQuery.Proofs.Build.Step

namespace RelQuery

open Workspace

namespace Workspace

/-- The workspace with one more level. -/
def entered (w : Workspace) (scope : Scope) (mode : FoldMode) : Workspace :=
  { w with context := ⟨w.context.scopes.enter scope, w.context.counters.push mode⟩ }

/-- The workspace with one more level, for a type. -/
def opened (w : Workspace) (type : Option DataType) (mode : FoldMode) : Workspace :=
  w.entered (.ofType type (w.context.scopes.level + 1)) mode

/-- The workspace in which a value is bound: it is built with a tracker of its
own and the counter put aside. -/
def binding (w : Workspace) : Workspace :=
  { w with
      context := { w.context with scopes := w.context.scopes.trackReads }
      pending := w.counter :: w.pending }

end Workspace

namespace Build

variable {w w' w₁ : Workspace} {slots : List Nat}

/-- What closing a level takes away and gives back. -/
theorem leave_eq_ok {captured : Captured} (h : leave w = .ok captured w') :
    ∃ parent rest entry entries,
      w.context.scopes.outer = parent :: rest ∧
      w.context.counters.entries = entry :: entries ∧
      captured = ⟨w.context.scopes.current, entry⟩ ∧
      w' = { w with context :=
        ⟨{ w.context.scopes with current := parent, outer := rest },
          { w.context.counters with entries := entries }⟩ } := by
  obtain ⟨⟨⟨current, outer, trackers⟩, ⟨root, entries⟩⟩, locals, pending, frames⟩ := w
  cases outer with
  | nil => exact absurd h fail_ne_ok
  | cons parent rest =>
      cases entries with
      | nil => exact absurd h fail_ne_ok
      | cons entry entries =>
          cases h
          exact ⟨parent, rest, entry, entries, rfl, rfl, rfl, rfl⟩

/-- The scopes of a closed level are those around it. -/
theorem widens_of_outer {s t : Scopes} {parent : Scope} {rest : List Scope}
    (houter : t.outer = parent :: rest) (h : List.Forall₂ Scope.Widens s.all t.outer)
    (htrackers : t.trackers.length = s.trackers.length) :
    s.Widens { t with current := parent, outer := rest } := by
  rw [houter] at h
  exact ⟨h, htrackers⟩

/-- The scopes around a level that only widens. -/
theorem outer_of_entered {scope : Scope} {mode : FoldMode}
    (h : (w.entered scope mode).Widens w₁ slots) :
    List.Forall₂ Scope.Widens w.context.scopes.all w₁.context.scopes.outer := by
  have hlevels := h.scopes.levels
  cases hlevels with
  | cons _ houter => exact houter

/-- The counters in a level that has one of its own. -/
theorem counters_of_entered {scope : Scope} {mode : FoldMode} {c : Counter}
    (hmode : w.context.counters.push mode
      = { w.context.counters with entries := some c :: w.context.counters.entries })
    (h : (w.entered scope mode).Widens w₁ slots) :
    w₁.context.counters
      = { w.context.counters with entries := some w₁.counter :: w.context.counters.entries } := by
  rw [h.counters]
  show (w.context.counters.push mode).update _ = _
  rw [hmode]
  rfl

/-- Closing a level that has a counter of its own. -/
theorem leave_own {scope : Scope} {mode : FoldMode} {c : Counter}
    (hmode : w.context.counters.push mode
      = { w.context.counters with entries := some c :: w.context.counters.entries })
    (h : (w.entered scope mode).Widens w₁ slots) {captured : Captured}
    (hleave : leave w₁ = .ok captured w') :
    w.Grows w' [] ∧ captured.counter = some w₁.counter := by
  obtain ⟨parent, rest, entry, entries, houter, hentries, rfl, rfl⟩ := leave_eq_ok hleave
  have hscopes := widens_of_outer houter (outer_of_entered h) h.scopes.trackers
  have hcounters := counters_of_entered hmode h
  have hlocals : w₁.locals = w.locals := h.locals
  have hpending : w₁.pending = w.pending := h.pending
  have hframes : w₁.frames = w.frames := h.frames
  rw [hcounters] at hentries
  cases hentries
  rw [hcounters, hlocals, hpending, hframes]
  exact ⟨.onScopes w hscopes, rfl⟩

/-- Closing a level that inherits its counter. -/
theorem leave_inherit {captured : Captured} {w₂ : Workspace}
    (houters : List.Forall₂ Scope.Widens w.context.scopes.all w₁.context.scopes.outer)
    (htrackers : w₁.context.scopes.trackers.length = w.context.scopes.trackers.length)
    (hcounters : w₁.context.counters
      = (w.context.counters.push .inherit).update fun _ => w₁.counter)
    (hleave : leave w₁ = .ok captured w₂) :
    w.context.scopes.Widens w₂.context.scopes ∧
      w₂.context.counters = w.context.counters.update (fun _ => w₁.counter) ∧
      w₂.locals = w₁.locals ∧ w₂.pending = w₁.pending ∧ w₂.frames = w₁.frames := by
  obtain ⟨parent, rest, entry, entries, houter, hentries, rfl, rfl⟩ := leave_eq_ok hleave
  rw [Counters.update_push_inherit] at hcounters
  refine ⟨widens_of_outer houter houters htrackers, ?_, rfl, rfl, rfl⟩
  rw [hcounters] at hentries ⊢
  cases hentries
  rfl

/-- What a counter has done inside a level counts outside, if the level
inherits it. -/
theorem widens_of_counter {u u' : Workspace} (h : u.Widens u' slots)
    (hcounter : u.counter = w.counter)
    (hscopes : w.context.scopes.Widens w'.context.scopes)
    (hcounters : w'.context.counters = w.context.counters.update fun _ => u'.counter)
    (hlocals : w'.locals = w.locals) (hpending : w'.pending = w.pending)
    (hframes : w'.frames = w.frames) :
    w.Widens w' slots ∧ w'.counter = u'.counter := by
  have hcounter' : w'.counter = u'.counter := by
    show w'.context.counters.current = _
    rw [hcounters, Counters.current_update]
  refine ⟨⟨hscopes, ?_, ?_, ?_, ?_, hlocals, hpending, hframes⟩, hcounter'⟩
  · rw [hcounters, hcounter']
  · rw [hcounter', h.enabled, hcounter]
  · rw [hcounter', h.total, hcounter]
  · rw [← hcounter]
    exact h.numbered

-- ===================================================== restrictions

/-- The checks after a predicate change nothing, and its segment has the
reads, slots and flag of the level that closes. -/
theorem restrict_eq_ok {base predicate n : Node} (h : restrict base predicate w = .ok n w') :
    ∃ captured, leave w = .ok captured w' ∧
      n = .restrict base (.make "where" predicate captured.scope.lookup
        (captured.counter.getD {}).total (captured.counter.getD {}).hasWindow) := by
  obtain ⟨captured, w₁, hleave, h⟩ := bind_eq_ok.mp h
  dsimp only at h
  split at h
  · obtain ⟨u, w₂, hfail, -⟩ := bind_eq_ok.mp h
    exact absurd hfail fail_ne_ok
  · generalize Builtin.find? "restrict" = found at h
    cases found with
    | some symbol =>
        obtain ⟨u, w₂, hresolve, h⟩ := bind_eq_ok.mp h
        obtain ⟨r, hresolve⟩ := discard_eq_ok.mp hresolve
        obtain ⟨-, rfl⟩ := ofExcept_eq_ok.mp hresolve
        cases h
        exact ⟨captured, hleave, rfl⟩
    | none =>
        cases h
        exact ⟨captured, hleave, rfl⟩

/-- A restriction opens a level for a row of its base, where nothing may be
folded. -/
theorem enterRestrict_eq_ok {base : Node} {u : Unit} (h : enterRestrict base w = .ok u w') :
    base.dataType.isRelation = true ∧ w' = w.opened base.dataType .disabled := by
  unfold enterRestrict at h
  split at h
  · cases h
    exact ⟨‹_›, rfl⟩
  · exact absurd h fail_ne_ok

/-- The steps of a restriction: its predicate is built in the level for a row
of the base, and the level is closed. -/
theorem restriction_steps {base n : Node} {step : Build Node}
    (h : (enterRestrict base >>= fun _ => step >>= fun p => restrict base p) w = .ok n w') :
    ∃ predicate w₁ captured, base.dataType.isRelation = true ∧
      step (w.opened base.dataType .disabled) = .ok predicate w₁ ∧ leave w₁ = .ok captured w' ∧
      n = .restrict base (.make "where" predicate captured.scope.lookup
        (captured.counter.getD {}).total (captured.counter.getD {}).hasWindow) := by
  obtain ⟨u, w₀, henter, h⟩ := bind_eq_ok.mp h
  obtain ⟨predicate, w₁, hpredicate, hrestrict⟩ := bind_eq_ok.mp h
  obtain ⟨hrelation, rfl⟩ := enterRestrict_eq_ok henter
  obtain ⟨captured, hleave, rfl⟩ := restrict_eq_ok hrestrict
  exact ⟨predicate, w₁, captured, hrelation, hpredicate, hleave, rfl⟩

/-- A predicate is built in a level that refuses folds. -/
theorem restrict_turns (base : Node) {step : Build Node} (h : Turns [] step fun n => [n]) :
    Turns [base] (enterRestrict base >>= fun _ => step >>= fun p => restrict base p)
      fun n => [n] := by
  intro w n w' hn
  obtain ⟨predicate, w₂, captured, -, hpredicate, hleave, rfl⟩ := restriction_steps hn
  obtain ⟨slots, hgrows, -, htidy⟩ := h _ predicate w₂ hpredicate
  obtain ⟨hclosed, -⟩ := leave_own rfl hgrows.toWidens hleave
  refine ⟨[], hclosed, by simp, fun hw hbase => ?_⟩
  have hp := htidy hw Node.allTidy_nil
  simp only [Node.allTidy_cons, Node.allTidy_nil, and_true] at hbase hp ⊢
  exact Node.isTidy_restrict.mpr ⟨hbase, hp⟩

-- =========================================================== blocks

/-- Between the bindings of a block: bound values have been added, and
symbols for them in the block's own scope. -/
structure Binds (w w' : Workspace) : Prop where
  outer : List.Forall₂ Scope.Widens w.context.scopes.outer w'.context.scopes.outer
  trackers : w'.context.scopes.trackers.length = w.context.scopes.trackers.length
  counters : w'.context.counters = w.context.counters
  locals : w.locals <+: w'.locals
  pending : w'.pending = w.pending
  frames : w'.frames = w.frames
  tidy : w.IsTidy → w'.IsTidy

namespace Binds

theorem refl (w : Workspace) : Binds w w :=
  ⟨List.forall₂_same.mpr fun x _ => .refl x, rfl, rfl, List.prefix_rfl, rfl, rfl, id⟩

theorem trans (h : Binds w w₁) (h' : Binds w₁ w') : Binds w w' where
  outer := Scopes.Widens.levels_trans h.outer h'.outer
  trackers := h'.trackers.trans h.trackers
  counters := h'.counters.trans h.counters
  locals := h.locals.trans h'.locals
  pending := h'.pending.trans h.pending
  frames := h'.frames.trans h.frames
  tidy := fun hw => h'.tidy (h.tidy hw)

end Binds

/-- A binding adds a symbol for the next slot, under a name that is new
to the block. -/
theorem bindLocal_adds {name : String} {value : Node} {u : Unit} {saved : Counter}
    {pending : List Counter} {seen : List Read} {trackers : List (List Read)}
    (hpending : w.pending = saved :: pending)
    (htrackers : w.context.scopes.trackers = seen :: trackers)
    (h : bindLocal name value w = .ok u w') :
    ∃ symbol : Symbol, symbol.name = name ∧ symbol.kind = .bound w.locals.length ∧
      symbol.type = value.dataType ∧ symbol.level = w.context.scopes.level ∧
      w.context.scopes.current.get? name = none ∧ w' =
      { context :=
          ⟨⟨{ w.context.scopes.current with
              symbols := w.context.scopes.current.symbols ++ [symbol] },
            w.context.scopes.outer, trackers⟩, w.context.counters.restore saved⟩
        locals := w.locals ++
          [⟨name, value, seen.filter (·.level ≤ w.context.scopes.level)⟩]
        pending, frames := w.frames } := by
  -- laid open, the workspace can be followed through the three changes
  obtain ⟨⟨⟨current, outer, ts⟩, counters⟩, locals, ps, frames⟩ := w
  subst hpending htrackers
  rw [bindLocal, get_bind_apply] at h
  obtain ⟨reads, w₁, hreads, h⟩ := bind_eq_ok.mp h
  cases hreads
  obtain ⟨u₁, w₂, hrestore, h⟩ := bind_eq_ok.mp h
  cases hrestore
  rw [get_bind_apply] at h
  obtain ⟨scopes, w₃, hadd, h⟩ := bind_eq_ok.mp h
  obtain ⟨hadd, rfl⟩ := ofExcept_eq_ok.mp hadd
  unfold Scopes.add at hadd
  split at hadd
  · cases hadd
  · rename_i hnew
    cases hadd
    cases h
    exact ⟨_, rfl, rfl, rfl, rfl, Option.not_isSome_iff_eq_none.mp hnew, rfl⟩

/-- A binding takes what was read for its value off the trackers, goes on
with the counter that was in force before, and adds a symbol to the level
and a value to the list. -/
theorem bindLocal_eq_ok {name : String} {value : Node} {u : Unit} {saved : Counter}
    {pending : List Counter} {seen : List Read} {trackers : List (List Read)}
    (hpending : w.pending = saved :: pending)
    (htrackers : w.context.scopes.trackers = seen :: trackers)
    (h : bindLocal name value w = .ok u w') :
    ∃ symbol : Symbol, symbol.kind.isLookup = false ∧ symbol.level = w.context.scopes.level ∧ w' =
      { context :=
          ⟨⟨{ w.context.scopes.current with
              symbols := w.context.scopes.current.symbols ++ [symbol] },
            w.context.scopes.outer, trackers⟩, w.context.counters.restore saved⟩
        locals := w.locals ++
          [⟨name, value, seen.filter (·.level ≤ w.context.scopes.level)⟩]
        pending, frames := w.frames } := by
  obtain ⟨symbol, -, hkind, -, hlevel, -, rfl⟩ := bindLocal_adds hpending htrackers h
  exact ⟨symbol, by rw [hkind]; rfl, hlevel, rfl⟩

/-- The steps of a binding: its value is built, then bound. -/
theorem binding_steps {step : Build Node} {name : String} {mark : Nat} {u : Unit}
    (h : (beginLocal >>= fun _ => step >>= fun n => located mark (bindLocal name n)) w
      = .ok u w') :
    ∃ value w₁, step w.binding = .ok value w₁ ∧ bindLocal name value w₁ = .ok u w' := by
  obtain ⟨u₀, w₀, hbegin, h⟩ := bind_eq_ok.mp h
  obtain ⟨value, w₁, hvalue, hbind⟩ := bind_eq_ok.mp h
  cases hbegin
  exact ⟨value, w₁, hvalue, located_eq_ok.mp hbind⟩

/-- One binding. The slots of its value are taken back; every use will
take its own. -/
theorem bindLocal_binds {step : Build Node} (h : Turns [] step fun n => [n]) {name : String}
    {mark : Nat} {u : Unit}
    (hu : (beginLocal >>= fun _ => step >>= fun n => located mark (bindLocal name n)) w
      = .ok u w') : Binds w w' := by
  obtain ⟨value, w₂, hvalue, hbind⟩ := binding_steps hu
  obtain ⟨slots, hgrows, -, htidy⟩ := h _ value w₂ hvalue
  obtain ⟨seen, trackers, htrackers⟩ := List.exists_cons_of_length_eq_add_one hgrows.scopes.trackers
  obtain ⟨symbol, -, -, rfl⟩ := bindLocal_eq_ok hgrows.pending htrackers hbind
  -- the scopes around have widened; tracker and counter are those from before
  constructor
  · have hlevels := hgrows.scopes.levels
    cases hlevels with
    | cons _ houter => exact houter
  · have hlength := hgrows.scopes.trackers
    rw [htrackers] at hlength
    exact Nat.succ.inj hlength
  · show w₂.context.counters.restore w.counter = w.context.counters
    rw [hgrows.counters, Counters.restore, Counters.update_update]
    exact Counters.update_current _
  · rw [hgrows.locals]
    exact List.prefix_append _ _
  · rfl
  · exact hgrows.frames
  -- of the locals only the last one is new, and its value is tidy
  · intro hw l hl
    rw [hgrows.locals] at hl
    rcases List.mem_append.mp hl with hl | hl
    · exact hw l hl
    · rw [List.mem_singleton.mp hl]
      have hvalue := htidy hw Node.allTidy_nil
      simpa using hvalue

/-- A block closes its level and forgets its bindings. -/
theorem block_eq_ok {first : Nat} {body n : Node} (h : block first body w = .ok n w') :
    ∃ captured w₁, leave w = .ok captured w₁ ∧
      w' = { w₁ with locals := w₁.locals.take first } ∧
      n = .block ((w₁.locals.drop first).map fun l => ⟨l.name, l.value⟩) body := by
  obtain ⟨u, w₁, hleave, h⟩ := bind_eq_ok.mp h
  obtain ⟨captured, hleave⟩ := discard_eq_ok.mp hleave
  rw [get_bind_apply] at h
  cases h
  exact ⟨captured, w₁, hleave, rfl, rfl⟩

/-- The steps of a block: its bindings and its body run in a level that counts
on, and at the end the level is closed and the bindings are forgotten. -/
theorem block_steps {n : Node} {bindings : Build Unit} {step : Build Node}
    (h : (enterBlock >>= fun first => bindings >>= fun _ => step >>= fun n => block first n) w
      = .ok n w') :
    ∃ u w₁ body w₂ captured w₃, bindings (w.opened none .inherit) = .ok u w₁ ∧
      step w₁ = .ok body w₂ ∧ leave w₂ = .ok captured w₃ ∧
      w' = { w₃ with locals := w₃.locals.take w.locals.length } ∧
      n = .block ((w₃.locals.drop w.locals.length).map fun l => ⟨l.name, l.value⟩) body := by
  obtain ⟨first, w₀, henter, h⟩ := bind_eq_ok.mp h
  obtain ⟨u, w₁, hbind, h⟩ := bind_eq_ok.mp h
  obtain ⟨body, w₂, hbody, hblock⟩ := bind_eq_ok.mp h
  cases henter
  obtain ⟨captured, w₃, hleave, rfl, rfl⟩ := block_eq_ok hblock
  exact ⟨u, w₁, body, w₂, captured, w₃, hbind, hbody, hleave, rfl, rfl⟩

/-- A block leaves the slots of its body, and none of its bindings. -/
theorem block_turns {bindings : Build Unit} {step : Build Node}
    (hbindings : ∀ w u w', bindings w = .ok u w' → Binds w w')
    (h : Turns [] step fun n => [n]) :
    Turns [] (enterBlock >>= fun first => bindings >>= fun _ => step >>= fun n => block first n)
      fun n => [n] := by
  intro w n w' hn
  obtain ⟨u, w₂, body, w₃, captured, w₄, hbind, hbody, hleave, rfl, rfl⟩ := block_steps hn
  have hbinds := hbindings _ u w₂ hbind
  obtain ⟨slots, hgrows, hslots, htidy⟩ := h w₂ body w₃ hbody
  -- the scope of the block is closed again; those around it have only grown
  have houters : List.Forall₂ Scope.Widens w.context.scopes.all w₃.context.scopes.outer := by
    have hlevels := hgrows.scopes.levels
    cases hlevels with
    | cons _ houter => exact Scopes.Widens.levels_trans hbinds.outer houter
  have hcounter : w₂.counter = w.counter := by
    show w₂.context.counters.current = _
    rw [hbinds.counters]
    rfl
  -- leaving puts the scopes around back and keeps the counter of the block
  obtain ⟨hscopes, hcounters, hlocals, hpending, hframes⟩ :=
    leave_inherit houters (hgrows.scopes.trackers.trans hbinds.trackers)
      (by rw [hgrows.counters, hbinds.counters]; rfl) hleave
  obtain ⟨more, hmore⟩ := hbinds.locals
  have hall : w₄.locals = w.locals ++ more := by
    rw [hlocals, hgrows.locals, ← hmore]
    rfl
  have hwidens : w.Widens { w₄ with locals := w₄.locals.take w.locals.length } slots ∧
      w₄.counter = w₃.counter := by
    refine widens_of_counter hgrows.toWidens hcounter hscopes hcounters ?_ ?_ ?_
    · rw [hall]
      exact List.take_left
    · exact hpending.trans (hgrows.pending.trans hbinds.pending)
    · exact hframes.trans (hgrows.frames.trans hbinds.frames)
  obtain ⟨hwidens, hcounter'⟩ := hwidens
  -- what is left is to account for the slots, then for the tree
  refine ⟨slots, ⟨hwidens, ?_, fun hw => ?_⟩, ?_, fun hw _ => ?_⟩
  · show w₄.counter.segments = _
    rw [hcounter', hgrows.segments, hcounter]
  · show w₄.counter = _
    rw [hcounter', hgrows.refused (by rw [hcounter]; exact hw), hcounter]
  · simpa using hslots
  · have hbody := htidy (hbinds.tidy hw) Node.allTidy_nil
    simp only [Node.allTidy_cons, Node.allTidy_nil, and_true] at hbody ⊢
    rw [Node.isTidy_block]
    refine ⟨fun value hvalue => ?_, hbody⟩
    -- the values of the bindings are those of the locals that the block has added
    rw [List.map_map] at hvalue
    obtain ⟨l, hl, rfl⟩ := List.mem_map.mp hvalue
    rw [hlocals, hgrows.locals] at hl
    exact hbinds.tidy hw l (List.mem_of_mem_drop hl)

end Build

end RelQuery
