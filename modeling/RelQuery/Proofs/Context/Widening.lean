/-
What may happen to the levels of a context that stay open.

Counters are a stack, but only the one in force ever changes. So
everything that a series of steps does to a stack of counters is one
update by a constant, and two such updates in a row are one
(`update_update`); putting back the counter that was in force is no
change at all (`update_current`).

Scopes that stay open keep what they were opened with. They only note
columns that are read, and only if they have a heading.
-/
import RelQuery.Context.Basic
import Mathlib.Data.List.Forall2

namespace RelQuery

namespace Counters

variable {f g : Counter → Counter}

-- ======================================================== counters

/-- The first counter that there is has been changed. -/
theorem findSome?_updateFirst (entries : List (Option Counter)) :
    (updateFirst f entries).findSome? id = (entries.findSome? id).map f := by
  induction entries with
  | nil => rfl
  | cons entry rest ih =>
      cases entry with
      | none => exact ih
      | some counter => rfl

/-- Changing the first counter twice is changing it once by both. -/
theorem updateFirst_updateFirst (entries : List (Option Counter)) :
    updateFirst g (updateFirst f entries) = updateFirst (fun c => g (f c)) entries := by
  induction entries with
  | nil => rfl
  | cons entry rest ih =>
      cases entry with
      | none => exact congrArg (none :: ·) ih
      | some counter => rfl

/-- Putting the first counter back in its place changes nothing. -/
theorem updateFirst_const {entries : List (Option Counter)} {c : Counter}
    (h : entries.findSome? id = some c) : updateFirst (fun _ => c) entries = entries := by
  induction entries with
  | nil => rfl
  | cons entry rest ih =>
      cases entry with
      | none => exact congrArg (none :: ·) (ih h)
      | some counter =>
          cases h
          rfl

/-- Changing a counter adds none. -/
theorem length_updateFirst (entries : List (Option Counter)) :
    (updateFirst f entries).length = entries.length := by
  induction entries with
  | nil => rfl
  | cons entry rest ih =>
      cases entry with
      | none => exact congrArg (· + 1) ih
      | some counter => rfl

/-- There is a current counter if any entry holds one. -/
theorem any_isSome (entries : List (Option Counter)) :
    entries.any (·.isSome) = (entries.findSome? id).isSome := by
  induction entries with
  | nil => rfl
  | cons entry rest ih =>
      cases entry with
      | none => exact ih
      | some counter => rfl

/-- An update seen from the counter in force: either the first entry
that has one, or the statement's. -/
theorem update_eq (c : Counters) :
    (∃ k, c.entries.findSome? id = some k ∧ c.current = k ∧
      ∀ f, c.update f = { c with entries := updateFirst f c.entries }) ∨
    (c.entries.findSome? id = none ∧ c.current = c.root ∧
      ∀ f, c.update f = { c with root := f c.root }) := by
  cases h : c.entries.findSome? id with
  | some k =>
      refine .inl ⟨k, rfl, by rw [current, h]; rfl, fun f => ?_⟩
      rw [update, any_isSome, h]
      rfl
  | none =>
      refine .inr ⟨rfl, by rw [current, h]; rfl, fun f => ?_⟩
      rw [update, any_isSome, h]
      rfl

/-- The current counter has been changed. -/
theorem current_update (c : Counters) (f : Counter → Counter) :
    (c.update f).current = f c.current := by
  obtain ⟨k, hk, hcurrent, hupdate⟩ | ⟨hnone, hcurrent, hupdate⟩ := c.update_eq
  · rw [hupdate, hcurrent, current, findSome?_updateFirst, hk]
    rfl
  · rw [hupdate, hcurrent, current, hnone]
    rfl

/-- Changing the current counter twice is changing it once by both. -/
theorem update_update (c : Counters) (f g : Counter → Counter) :
    (c.update f).update g = c.update fun k => g (f k) := by
  obtain ⟨k, hk, -, hupdate⟩ | ⟨hnone, -, hupdate⟩ := c.update_eq
  · rw [hupdate f, hupdate, update, any_isSome, findSome?_updateFirst, hk, updateFirst_updateFirst]
    rfl
  · rw [hupdate f, hupdate, update, any_isSome, hnone]
    rfl

/-- Putting the current counter back changes nothing. -/
theorem update_current (c : Counters) : (c.update fun _ => c.current) = c := by
  obtain ⟨k, hk, hcurrent, hupdate⟩ | ⟨hnone, hcurrent, hupdate⟩ := c.update_eq
  · rw [hupdate, hcurrent, updateFirst_const hk]
  · rw [hupdate, hcurrent]

/-- The first entry is a counter after a change if it was one before. -/
theorem head?_update (c : Counters) (f : Counter → Counter) :
    (c.update f).entries.head? = c.entries.head?.map (Option.map f) := by
  obtain ⟨root, entries⟩ := c
  cases entries with
  | nil => rfl
  | cons entry rest =>
      cases entry with
      | some k => rfl
      | none =>
          unfold update
          split
          · rfl
          · rfl

theorem depth_update (c : Counters) (f : Counter → Counter) : (c.update f).depth = c.depth := by
  obtain ⟨k, -, -, hupdate⟩ | ⟨-, -, hupdate⟩ := c.update_eq
  · rw [hupdate, depth, depth, length_updateFirst]
  · rw [hupdate]
    rfl

/-- A level that inherits its counter passes every update on. -/
theorem update_push_inherit (c : Counters) (f : Counter → Counter) :
    (c.push .inherit).update f = (c.update f).push .inherit := by
  obtain ⟨k, hk, -, hupdate⟩ | ⟨hnone, -, hupdate⟩ := c.update_eq
  · rw [hupdate, update, any_isSome]
    show (if (c.entries.findSome? id).isSome then _ else _) = _
    rw [hk]
    rfl
  · rw [hupdate, update, any_isSome]
    show (if (c.entries.findSome? id).isSome then _ else _) = _
    rw [hnone]
    rfl

end Counters

-- ========================================================== scopes

/-- The same level later on: it may have noted columns that were read,
if it has a heading. -/
structure Scope.Widens (s t : Scope) : Prop where
  kind : t.kind = s.kind
  level : t.level = s.level
  heading : t.heading = s.heading
  symbols : t.symbols = s.symbols
  lookup : s.lookup <+: t.lookup
  bare : s.heading = none → t.lookup = s.lookup

namespace Scope.Widens

variable {s t u : Scope}

theorem refl (s : Scope) : Widens s s :=
  ⟨rfl, rfl, rfl, rfl, List.prefix_rfl, fun _ => rfl⟩

theorem trans (h : Widens s t) (h' : Widens t u) : Widens s u where
  kind := h'.kind.trans h.kind
  level := h'.level.trans h.level
  heading := h'.heading.trans h.heading
  symbols := h'.symbols.trans h.symbols
  lookup := h.lookup.trans h'.lookup
  bare := fun hs => (h'.bare (h.heading.trans hs)).trans (h.bare hs)

/-- Recording a read only adds to what a scope lists. -/
theorem record (s : Scope) (column : Column) (level : Nat) :
    Widens s (s.record column level) := by
  unfold Scope.record
  split
  · rename_i h
    rw [Bool.and_eq_true] at h
    refine ⟨rfl, rfl, rfl, rfl, ?_, fun hs => ?_⟩
    · show s.lookup <+: s.lookup.insertNew column
      unfold Heading.insertNew
      split
      · exact List.prefix_rfl
      · exact List.prefix_append _ _
    · rw [hs] at h
      cases h.2
  · exact refl s

end Scope.Widens

/-- The same levels later on, and as many open trackers. -/
structure Scopes.Widens (s t : Scopes) : Prop where
  levels : List.Forall₂ Scope.Widens s.all t.all
  trackers : t.trackers.length = s.trackers.length

namespace Scopes.Widens

variable {s t u : Scopes}

theorem refl (s : Scopes) : Widens s s :=
  ⟨List.forall₂_same.mpr fun x _ => .refl x, rfl⟩

/-- Scopes that only grow, level by level, do so from beginning to end. -/
theorem levels_trans {a b c : List Scope} (h : List.Forall₂ Scope.Widens a b)
    (h' : List.Forall₂ Scope.Widens b c) : List.Forall₂ Scope.Widens a c := by
  induction h generalizing c with
  | nil => exact h'
  | cons hab _ ih =>
      cases h' with
      | cons hbc hrest => exact .cons (hab.trans hbc) (ih hrest)

theorem trans (h : Widens s t) (h' : Widens t u) : Widens s u :=
  ⟨levels_trans h.levels h'.levels, h'.trackers.trans h.trackers⟩

/-- Recording a read only adds to what the scopes list. -/
theorem record (s : Scopes) (column : Column) (level : Nat) :
    Widens s (s.record column level) := by
  constructor
  · show List.Forall₂ Scope.Widens s.all (s.all.map (·.record column level))
    rw [List.forall₂_map_right_iff]
    exact List.forall₂_same.mpr fun x _ => .record x column level
  · exact List.length_map _

/-- Recording reads only adds to what the scopes list, one after the other. -/
theorem foldl_record (s : Scopes) (reads : List Read) :
    Widens s (reads.foldl (fun s r => s.record r.column r.level) s) := by
  induction reads generalizing s with
  | nil => exact refl s
  | cons r reads ih => exact (record s r.column r.level).trans (ih _)

/-- Resolving a name only adds to what the scopes list. -/
theorem resolve (s : Scopes) (name : String) : Widens s (s.resolve name).2 := by
  unfold Scopes.resolve
  split
  · exact refl s
  · dsimp only
    split
    · exact record s _ _
    · exact refl s

end Scopes.Widens

end RelQuery
