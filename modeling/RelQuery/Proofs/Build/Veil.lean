/-
What cannot be seen is not noticed.

Inside a scope that offers all the names of the one around it, nothing
that is built depends on the columns of that outer scope: building an
expression and taking the columns away can be done in either order
(`expression_overlooks`). The operations on scopes overlook it, wherever
they are used further in than the two scopes in question; places are
numbered by how many scopes are open. A level may be closed only if it is
further in than the two; as levels are closed where they were opened,
the depth at the beginning decides that.
-/
import RelQuery.Proofs.Build.Blind
import RelQuery.Proofs.Context.Veil

namespace RelQuery

/-- The innermost scope has `d` others around it, and the one that has
`k` cannot be seen. -/
structure Scopes.Inside (k d : Nat) (s : Scopes) : Prop where
  veiled : s.Veiled k
  depth : s.outer.length = d

namespace Workspace

/-- Takes away the columns of the scope that has `k` others around
it. -/
def clear (k : Nat) (w : Workspace) : Workspace :=
  { w with context := { w.context with scopes := w.context.scopes.clear k } }

/-- The innermost scope has `d` others around it, and the one that has
`k` cannot be seen. -/
abbrev Inside (k d : Nat) (w : Workspace) : Prop :=
  w.context.scopes.Inside k d

/-- A level is opened in front of the one that is cleared. -/
theorem clear_opened {k : Nat} {w : Workspace} (h : k ≤ w.context.scopes.outer.length)
    (type : Option DataType) (mode : FoldMode) :
    (w.clear k).opened type mode = (w.opened type mode).clear k := by
  have hpush := Scopes.push_clear h type
  unfold Scopes.push at hpush
  unfold Workspace.opened entered clear
  dsimp only
  rw [hpush]

end Workspace

namespace Scopes.Inside

variable {k d : Nat} {s t : Scopes}

theorem lt (h : s.Inside k d) : k < d :=
  h.depth ▸ h.veiled.depth

theorem recordAll (h : s.Inside k d) (reads : List Read) : (s.recordAll reads).Inside k d where
  veiled := h.veiled.recordAll reads
  depth := by
    have hlevels := (recordAll_widens reads s).levels.length_eq
    exact (Nat.succ.inj hlevels).symm.trans h.depth

/-- A level that is further in may be closed. -/
theorem pop {scope : Scope} (h : s.Inside k (d + 1)) (hd : k < d) (hpop : s.pop = .ok (scope, t)) :
    t.Inside k d := by
  obtain ⟨current, outer, trackers⟩ := s
  cases outer with
  | nil => cases h.depth
  | cons parent rest =>
      cases hpop
      have hdepth : rest.length = d := Nat.succ.inj h.depth
      refine ⟨h.veiled.of_all rfl ?_, hdepth⟩
      show k + 1 < rest.length + 1
      omega

/-- A symbol goes to the innermost level, which is not the cleared one. -/
theorem add {symbol : Symbol} (h : s.Inside k d) (hadd : s.add symbol = .ok t) :
    t.Inside k d := by
  unfold Scopes.add at hadd
  split at hadd
  · cases hadd
  · cases hadd
    exact ⟨h.veiled.add _ _, h.depth⟩

/-- What trackers have seen is not cleared. -/
theorem takeReads (h : s.Inside k d) :
    (s.clear k).takeReads = (s.takeReads.1, s.takeReads.2.clear k) ∧ s.takeReads.2.Inside k d := by
  obtain ⟨current, outer, trackers⟩ := s
  cases trackers with
  | nil => exact ⟨rfl, h⟩
  | cons seen rest => exact ⟨rfl, h.veiled, h.depth⟩

end Scopes.Inside

namespace Build

open Workspace

variable {k d : Nat} {w : Workspace}

/-- The operations on scopes overlook what cannot be seen. -/
def veil (k : Nat) : Blind where
  change := Scopes.clear k
  At := Scopes.Inside k
  opened := (· + 1)
  tracked := id
  level := fun _ => Scopes.level_clear
  find? := fun h _ => h.veiled.find?_clear
  heading? := fun h => h.veiled.heading?_clear
  recordAll := fun _ reads => Scopes.recordAll_clear reads
  recordAll_at := fun h reads => h.recordAll reads
  enter := fun h scope => Scopes.enter_clear (Nat.le_of_lt h.veiled.depth) scope
  enter_at := fun h scope => ⟨h.veiled.enter scope, congrArg (· + 1) h.depth⟩
  pop := fun _ h => Scopes.pop_clear h.veiled.depth
  pop_at := fun h₀ h hpop => h.pop h₀.lt hpop
  add := fun h symbol => Scopes.add_clear h.veiled.depth symbol
  add_at := fun h hadd => h.add hadd
  trackReads := fun _ => rfl
  trackReads_at := fun h => ⟨h.veiled, h.depth⟩
  takeReads := fun h => h.takeReads.1
  takeReads_at := fun h => h.takeReads.2

/-- The scope inside it may be closed, and is the same. -/
theorem leave_clear (h : k < w.context.scopes.outer.length) :
    leave (w.clear k) = changedEnd (Scopes.clear k) (leave w) := by
  have hleave : Overlooks (Scopes.clear k) (fun w => k < w.context.scopes.outer.length)
      (fun _ => True) leave :=
    .ofContext (fun _ hw => pop_changed (Scopes.pop_clear hw)) fun _ _ _ _ => trivial
  exact (hleave w h).1

/-- Building an expression does not notice what cannot be seen. -/
theorem expression_overlooks (catalog : Catalog) (e : Expr) :
    Overlooks (Scopes.clear k) (Inside k d) (Inside k d) (expression catalog false e) :=
  (veil k).expression_passes catalog e

end Build

end RelQuery
