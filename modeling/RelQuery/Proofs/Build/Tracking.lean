/-
What trackers have seen is not noticed.

A tracker collects the reads of a bound value. It is looked at only when
that value is bound, so what is built in between does not depend on what
the trackers around it have seen by then, nor on how many there are: a
step that ends the trackers that it starts runs to the same result with
others in place of those around it (`run_retracked`).
-/
import RelQuery.Proofs.Build.Blind

namespace RelQuery

namespace Scopes

variable {m d : Nat} {s t : Scopes}

/-- Takes away the `m` outermost trackers. -/
def untracked (m : Nat) (s : Scopes) : Scopes :=
  { s with trackers := s.trackers.take (s.trackers.length - m) }

/-- Recording does not depend on what trackers have seen. -/
theorem recordAll_untracked (m : Nat) (s : Scopes) (reads : List Read) :
    (s.untracked m).recordAll reads = (s.recordAll reads).untracked m := by
  induction reads generalizing s with
  | nil => rfl
  | cons r rest ih =>
      have hrecord : (s.untracked m).record r.column r.level
          = (s.record r.column r.level).untracked m := by
        unfold record untracked
        rw [List.length_map, List.map_take]
      show ((s.untracked m).record r.column r.level).recordAll rest = _
      rw [hrecord]
      exact ih _

/-- Recording adds no tracker. -/
theorem length_trackers_recordAll (s : Scopes) (reads : List Read) :
    (s.recordAll reads).trackers.length = s.trackers.length := by
  induction reads generalizing s with
  | nil => rfl
  | cons r rest ih => exact (ih _).trans (List.length_map _)

/-- A symbol is added to a scope, whoever tracks. -/
theorem add_untracked (m : Nat) (s : Scopes) (symbol : Symbol) :
    (s.untracked m).add symbol = (s.add symbol).map (untracked m) := by
  unfold add untracked
  split
  · rfl
  · rfl

theorem add_trackers {symbol : Symbol} (h : s.add symbol = .ok t) : t.trackers = s.trackers := by
  unfold add at h
  split at h
  · cases h
  · cases h
    rfl

/-- A level is left, whoever tracks. -/
theorem pop_untracked (m : Nat) (s : Scopes) :
    (s.untracked m).pop = s.pop.map fun p => (p.1, p.2.untracked m) := by
  obtain ⟨current, outer, trackers⟩ := s
  cases outer with
  | nil => rfl
  | cons parent rest => rfl

theorem pop_trackers {scope : Scope} (h : s.pop = .ok (scope, t)) : t.trackers = s.trackers := by
  obtain ⟨current, outer, trackers⟩ := s
  cases outer with
  | nil => cases h
  | cons parent rest =>
      cases h
      rfl

/-- A tracker that is started is not one of the outermost. -/
theorem trackReads_untracked (h : s.trackers.length = m + d) :
    (s.untracked m).trackReads = s.trackReads.untracked m := by
  have hlength : s.trackers.length + 1 - m = d + 1 := by omega
  have hless : s.trackers.length - m = d := by omega
  unfold trackReads untracked
  dsimp only
  rw [List.length_cons, hlength, hless, List.take_succ_cons]

/-- What a value has read is taken off the innermost tracker. -/
theorem takeReads_untracked (h : s.trackers.length = m + (d + 1)) :
    (s.untracked m).takeReads = (s.takeReads.1, s.takeReads.2.untracked m) ∧
      s.takeReads.2.trackers.length = m + d := by
  obtain ⟨current, outer, trackers⟩ := s
  cases trackers with
  | nil => cases h
  | cons seen rest =>
      have hrest : rest.length = m + d := Nat.succ.inj h
      have hlength : rest.length + 1 - m = d + 1 := by omega
      have hless : rest.length - m = d := by omega
      refine ⟨?_, hrest⟩
      unfold takeReads untracked
      dsimp only
      rw [List.length_cons, hlength, hless, List.take_succ_cons]

end Scopes

namespace Build

variable {α : Type} {m : Nat} {step : Build α} {w w' : Workspace} {a : α}

/-- The operations on scopes overlook the `m` outermost trackers; places
are numbered by how many there are besides. -/
def hideTrackers (m : Nat) : Blind where
  change := Scopes.untracked m
  At := fun d s => s.trackers.length = m + d
  opened := id
  tracked := (· + 1)
  level := fun _ => rfl
  find? := fun _ _ => rfl
  heading? := fun _ => rfl
  recordAll := Scopes.recordAll_untracked m
  recordAll_at := fun h reads => (Scopes.length_trackers_recordAll _ reads).trans h
  enter := fun _ _ => rfl
  enter_at := fun h _ => h
  pop := fun _ _ => Scopes.pop_untracked m _
  pop_at := fun _ h hpop => Scopes.pop_trackers hpop ▸ h
  add := fun _ symbol => Scopes.add_untracked m _ symbol
  add_at := fun h hadd => Scopes.add_trackers hadd ▸ h
  trackReads := fun h => Scopes.trackReads_untracked h
  trackReads_at := fun h => congrArg (· + 1) h
  takeReads := fun h => (Scopes.takeReads_untracked h).1
  takeReads_at := fun h => (Scopes.takeReads_untracked h).2

/-- The workspace with other trackers. -/
def retracked (trackers : List (List Read)) (w : Workspace) : Workspace :=
  w.changed fun s => { s with trackers }

/-- Without the trackers further out, those that are left are the ones
opened since. -/
theorem changed_untracked (h : w.context.scopes.trackers.length = m) :
    w.changed (Scopes.untracked m) = retracked [] w := by
  unfold Workspace.changed Scopes.untracked retracked Workspace.changed
  rw [h, Nat.sub_self, List.take_zero]

/-- With other trackers around it, a step comes to the same. -/
theorem run_retracked (h : ∀ m, (hideTrackers m).Passes 0 0 step) (hrun : step w = .ok a w')
    (trackers : List (List Read)) : ∃ v', step (retracked trackers w) = .ok a v' := by
  have hbare : step (retracked [] w)
      = changedEnd (Scopes.untracked w.context.scopes.trackers.length) (step w) := by
    rw [← changed_untracked rfl]
    exact (h _ w rfl).1
  have hother : step (retracked [] w)
      = changedEnd (Scopes.untracked trackers.length) (step (retracked trackers w)) := by
    have hsame : retracked [] w = retracked [] (retracked trackers w) := rfl
    rw [hsame, ← changed_untracked rfl]
    exact (h trackers.length (retracked trackers w) rfl).1
  rw [hbare, hrun] at hother
  cases hstep : step (retracked trackers w) with
  | ok b v' =>
      rw [hstep] at hother
      obtain ⟨rfl, -⟩ := EStateM.Result.ok.inj hother
      exact ⟨v', rfl⟩
  | error f v' =>
      rw [hstep] at hother
      cases hother

end Build

end RelQuery
