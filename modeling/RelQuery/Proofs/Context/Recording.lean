/-
Reads in the order in which they happened.

All that building does to scopes that stay open is to record reads, one
after another. So the scopes afterwards are known from the reads alone
(`Scopes.recordAll`): a lookup has no column but that of some read, each
name once, and a tracker has seen nothing else. Scopes opened meanwhile
do not matter once they are closed.

A column that is read directly is the one that its name leads to. Which
one that is depends on where it is asked: scopes further in may declare
the name again. But a scope is asked only about columns declared at its
own level or around it, and for these the scopes further in make no
difference (`FindsAt.of_enter`).
-/
import RelQuery.Proofs.Context.Note

namespace RelQuery

namespace Heading

/-- Inserting a column leaves names distinct. -/
theorem nodup_insertNew {h : Heading} (column : Column) (hnodup : h.names.Nodup) :
    (h.insertNew column).names.Nodup := by
  unfold insertNew
  split
  · exact hnodup
  · rename_i hnew
    rw [names, List.map_append]
    refine List.nodup_append.mpr ⟨hnodup, List.pairwise_singleton _ _, ?_⟩
    rintro name hname _ hmem rfl
    obtain rfl := List.mem_singleton.mp hmem
    obtain ⟨c, hc, heq⟩ := List.mem_map.mp hname
    exact hnew (List.any_eq_true.mpr ⟨c, hc, beq_iff_eq.mpr heq⟩)

/-- A column of a heading with one more is one of the old ones or the new
one. -/
theorem mem_insertNew {h : Heading} {column d : Column} (hd : d ∈ h.insertNew column) :
    d ∈ h ∨ d = column := by
  unfold insertNew at hd
  split at hd
  · exact .inl hd
  · rcases List.mem_append.mp hd with hd | hd
    · exact .inl hd
    · exact .inr (List.mem_singleton.mp hd)

end Heading

-- ======================================================== one scope

namespace Scope

/-- The scope after some reads. -/
def recordAll (reads : List Read) (s : Scope) : Scope :=
  reads.foldl (fun s r => s.record r.column r.level) s

variable {s : Scope} {reads : List Read}

/-- Recording reads only adds to what a scope lists. -/
theorem recordAll_widens (reads : List Read) (s : Scope) : s.Widens (s.recordAll reads) := by
  induction reads generalizing s with
  | nil => exact .refl s
  | cons r rest ih => exact (Widens.record s r.column r.level).trans (ih _)

/-- A column that a scope lists after a read was there, or is the one read
from within. -/
theorem mem_lookup_record {r : Read} {d : Column} (hd : d ∈ (s.record r.column r.level).lookup) :
    d ∈ s.lookup ∨ r.column = d ∧ r.level ≤ s.level := by
  unfold record at hd
  split at hd
  · rename_i hrecord
    obtain ⟨hlevel, -⟩ := Bool.and_eq_true_iff.mp hrecord
    rcases Heading.mem_insertNew hd with hd | rfl
    · exact .inl hd
    · exact .inr ⟨rfl, of_decide_eq_true hlevel⟩
  · exact .inl hd

/-- What a scope has in its lookup it had before, or it was read at a
level that concerns the scope. -/
theorem mem_lookup_recordAll {d : Column} (hd : d ∈ (s.recordAll reads).lookup) :
    d ∈ s.lookup ∨ ∃ r ∈ reads, r.column = d ∧ r.level ≤ s.level := by
  induction reads generalizing s with
  | nil => exact .inl hd
  | cons r rest ih =>
      rcases ih hd with hd | ⟨r', hr', hcolumn, hlevel⟩
      · rcases mem_lookup_record hd with hd | hread
        · exact .inl hd
        · exact .inr ⟨r, List.mem_cons_self, hread⟩
      · rw [(Widens.record s r.column r.level).level] at hlevel
        exact .inr ⟨r', List.mem_cons_of_mem _ hr', hcolumn, hlevel⟩

/-- Recording leaves the names in a lookup distinct. -/
theorem nodup_lookup_recordAll (h : s.lookup.names.Nodup) :
    (s.recordAll reads).lookup.names.Nodup := by
  induction reads generalizing s with
  | nil => exact h
  | cons r rest ih =>
      have hfirst : (s.record r.column r.level).lookup.names.Nodup := by
        unfold record
        split
        · exact Heading.nodup_insertNew r.column h
        · exact h
      exact ih hfirst

/-- The columns that a scope offers are those of its heading. -/
structure IsSeeded (s : Scope) : Prop where
  columns : ∀ symbol ∈ s.symbols, symbol.kind.isLookup = true →
    ∃ heading, s.heading = some heading ∧ ⟨symbol.name, symbol.type⟩ ∈ heading
  offered : ∀ heading, s.heading = some heading → ∀ column ∈ heading,
    ∃ symbol ∈ s.symbols, symbol.name = column.name

/-- A seeded scope finds just the columns that it was seeded with. -/
theorem get?_seeded_eq (kind : ScopeKind) (level : Nat) (heading : Heading)
    (symbolKind : SymbolKind) (name : String) : (seeded kind level heading symbolKind).get? name
      = (Heading.get? heading name).map fun c =>
        { name := c.name, kind := symbolKind, type := c.type, level } :=
  List.find?_map

theorem isSeeded_bare (kind : ScopeKind) (level : Nat) : (bare kind level).IsSeeded where
  columns := fun _ h => absurd h List.not_mem_nil
  offered := fun _ h => nomatch h

theorem isSeeded_seeded (kind : ScopeKind) (level : Nat) (heading : Heading)
    (symbolKind : SymbolKind) : (seeded kind level heading symbolKind).IsSeeded where
  columns := by
    intro symbol hsymbol _
    obtain ⟨⟨name, type⟩, hcolumn, rfl⟩ := List.mem_map.mp hsymbol
    exact ⟨heading, rfl, hcolumn⟩
  offered := by
    rintro _ ⟨⟩ column hcolumn
    exact ⟨_, List.mem_map_of_mem hcolumn, rfl⟩

/-- The scope of a type has been seeded with its columns. -/
theorem isSeeded_ofType (type : Option DataType) (level : Nat) : (ofType type level).IsSeeded := by
  unfold ofType
  split
  · exact isSeeded_seeded _ _ _ _
  · exact isSeeded_seeded _ _ _ _
  · exact isSeeded_seeded _ _ _ _
  · exact isSeeded_bare _ _

/-- A scope stays seeded when more is listed in it. -/
theorem IsSeeded.widens {t : Scope} (h : s.IsSeeded) (hwidens : s.Widens t) : t.IsSeeded := by
  constructor
  · rw [hwidens.symbols, hwidens.heading]
    exact h.columns
  · rw [hwidens.symbols, hwidens.heading]
    exact h.offered

/-- Symbols that stand for no column may be added. -/
theorem IsSeeded.add {symbol : Symbol} (h : s.IsSeeded) (hsymbol : symbol.kind.isLookup = false) :
    IsSeeded { s with symbols := s.symbols ++ [symbol] } where
  columns := by
    intro other hother hlookup
    rcases List.mem_append.mp hother with hother | hother
    · exact h.columns other hother hlookup
    · rw [List.mem_singleton.mp hother, hsymbol] at hlookup
      cases hlookup
  offered := by
    intro heading hheading column hcolumn
    obtain ⟨other, hother, hname⟩ := h.offered heading hheading column hcolumn
    exact ⟨other, List.mem_append_left _ hother, hname⟩

theorem get?_eq_some {name : String} {symbol : Symbol} (h : s.get? name = some symbol) :
    symbol ∈ s.symbols ∧ symbol.name = name :=
  ⟨List.mem_of_find?_eq_some h, by simpa using List.find?_some h⟩

/-- In the row that is nearest, a name leads to a column of that row, if
it leads to a column at all. -/
theorem mem_nearest_heading {scopes : List Scope} (h : ∀ scope ∈ scopes, scope.IsSeeded)
    {heading : Heading} (hheading : scopes.findSome? (·.heading) = some heading) {name : String}
    (hname : name ∈ heading.names) {symbol : Symbol}
    (hsymbol : scopes.findSome? (·.get? name) = some symbol)
    (hlookup : symbol.kind.isLookup = true) :
    ⟨symbol.name, symbol.type⟩ ∈ heading := by
  -- the induction is on the scopes, looked through from the inside
  induction scopes with
  | nil => cases hheading
  | cons scope rest ih =>
      obtain ⟨hscope, hrest⟩ := List.forall_mem_cons.mp h
      rw [List.findSome?_cons] at hheading hsymbol
      -- the scope that has a row offers all its columns, so it also answers for the
      -- name
      cases hown : scope.heading with
      | some own =>
          rw [hown] at hheading
          obtain rfl := Option.some.inj hheading
          obtain ⟨column, hcolumn, rfl⟩ := List.mem_map.mp hname
          obtain ⟨other, hother, hsame⟩ := hscope.offered own hown column hcolumn
          cases hget : scope.get? column.name with
          | some found =>
              rw [hget] at hsymbol
              obtain rfl := Option.some.inj hsymbol
              obtain ⟨heading, hheading, hmem⟩ :=
                hscope.columns found (get?_eq_some hget).1 hlookup
              rw [hown] at hheading
              obtain rfl := Option.some.inj hheading
              exact hmem
          | none =>
              have hnone := List.find?_eq_none.mp hget other hother
              exact absurd (beq_iff_eq.mpr hsame) hnone
      | none =>
          -- a scope without a row may answer too, but not with a column
          rw [hown] at hheading
          cases hget : scope.get? name with
          | some found =>
              rw [hget] at hsymbol
              obtain rfl := Option.some.inj hsymbol
              obtain ⟨heading, hheading', -⟩ := hscope.columns found (get?_eq_some hget).1 hlookup
              rw [hown] at hheading'
              cases hheading'
          | none =>
              rw [hget] at hsymbol
              exact ih hrest hheading hsymbol

end Scope

-- ======================================================= all scopes

namespace Scopes

/-- The scopes and trackers after some reads. -/
def recordAll (reads : List Read) (s : Scopes) : Scopes :=
  reads.foldl (fun s r => s.record r.column r.level) s

variable {s : Scopes} {scope : Scope} {reads more : List Read} {name : String}

theorem recordAll_append : s.recordAll (reads ++ more) = (s.recordAll reads).recordAll more :=
  List.foldl_append

/-- Recording reads only adds to what the scopes list. -/
theorem recordAll_widens (reads : List Read) (s : Scopes) : s.Widens (s.recordAll reads) :=
  Widens.foldl_record s reads

/-- Each open scope records for itself. -/
theorem recordAll_enter (reads : List Read) (s : Scopes) (scope : Scope) :
    (s.enter scope).recordAll reads = (s.recordAll reads).enter (scope.recordAll reads) := by
  induction reads generalizing s scope with
  | nil => rfl
  | cons r rest ih => exact ih (s.record r.column r.level) (scope.record r.column r.level)

/-- A tracker that is started first sees these reads and no others. -/
theorem recordAll_trackReads (reads : List Read) (s : Scopes) :
    s.trackReads.recordAll reads = { s.recordAll reads with
      trackers := reads.foldl (fun seen r => track r seen) [] ::
        (s.recordAll reads).trackers } := by
  have hseen : ∀ (s : Scopes) (seen : List Read),
      recordAll reads { s with trackers := seen :: s.trackers } = { s.recordAll reads with
        trackers := reads.foldl (fun seen r => track r seen) seen ::
          (s.recordAll reads).trackers } := by
    induction reads with
    | nil => exact fun _ _ => rfl
    | cons r rest ih => exact fun s seen => ih (s.record r.column r.level) (track r seen)
  exact hseen s []

/-- A tracked read was tracked before or is the new one. -/
theorem eq_or_mem_of_track {seen : List Read} {r first : Read} (h : r ∈ track first seen) :
    r ∈ seen ∨ r = first := by
  unfold track at h
  split at h
  · exact .inl h
  · rcases List.mem_append.mp h with h | h
    · exact .inl h
    · exact .inr (List.mem_singleton.mp h)

/-- A read tracked after several was tracked before or is one of them. -/
theorem mem_foldl_track {seen : List Read} {r : Read}
    (h : r ∈ reads.foldl (fun seen r => track r seen) seen) : r ∈ seen ∨ r ∈ reads := by
  induction reads generalizing seen with
  | nil => exact .inl h
  | cons first rest ih =>
      rcases ih h with h | h
      · rcases eq_or_mem_of_track h with h | rfl
        · exact .inl h
        · exact .inr List.mem_cons_self
      · exact .inr (List.mem_cons_of_mem _ h)

/-- Recording opens and closes no scope. -/
theorem level_recordAll (reads : List Read) (s : Scopes) : (s.recordAll reads).level = s.level := by
  have hlevels := (recordAll_widens reads s).levels
  cases hlevels with
  | cons hcurrent _ => exact hcurrent.level

/-- What was read does not change where names lead. -/
theorem Widens.find?_eq {t : Scopes} (h : s.Widens t) (name : String) :
    t.find? name = s.find? name := by
  have hlevels := h.levels
  unfold find?
  generalize s.all = xs at hlevels
  generalize t.all = ys at hlevels
  induction hlevels with
  | nil => rfl
  | cons hscope _ ih =>
      have hget (name : String) : Scope.get? _ name = Scope.get? _ name :=
        congrArg (List.find? _) hscope.symbols
      rw [List.findSome?_cons, List.findSome?_cons, hget, ih]

theorem find?_recordAll (reads : List Read) (s : Scopes) (name : String) :
    (s.recordAll reads).find? name = s.find? name :=
  (recordAll_widens reads s).find?_eq name

/-- A name is looked for in the scope entered last, then further out. -/
theorem find?_enter : (s.enter scope).find? name = (scope.get? name).or (s.find? name) := by
  show (scope :: s.all).findSome? _ = _
  rw [List.findSome?_cons]
  cases scope.get? name with
  | some symbol => rfl
  | none => rfl

-- ============================================================ seeded

/-- The scopes are sound, and offer the columns of their headings. -/
structure IsSeeded (s : Scopes) : Prop extends s.IsSound where
  seeded : ∀ scope ∈ s.all, scope.IsSeeded

theorem IsSeeded.fresh : Scopes.fresh.IsSeeded where
  toIsSound := .fresh
  seeded := List.forall_mem_singleton.mpr (Scope.isSeeded_bare _ _)

theorem IsSeeded.recordAll (h : s.IsSeeded) (reads : List Read) : (s.recordAll reads).IsSeeded where
  toIsSound := h.toIsSound.widens (recordAll_widens reads s)
  seeded := by
    intro scope' hmem'
    obtain ⟨scope, hmem, hscope⟩ := forall₂_mem_right (recordAll_widens reads s).levels hmem'
    exact (h.seeded scope hmem).widens hscope

theorem IsSeeded.enter (h : s.IsSeeded) (hadmits : s.Admits scope) (hscope : scope.IsSeeded) :
    (s.enter scope).IsSeeded where
  toIsSound := h.toIsSound.enter hadmits
  seeded := List.forall_mem_cons.mpr ⟨hscope, h.seeded⟩

theorem IsSeeded.enter_ofType (h : s.IsSeeded) (type : Option DataType) :
    (s.enter (.ofType type (s.level + 1))).IsSeeded :=
  h.enter (admits_ofType s type) (Scope.isSeeded_ofType _ _)

-- ===================================================== direct reads

/-- The name of the column leads to it, at the level that declares
it. -/
def FindsAt (s : Scopes) (column : Column) (level : Nat) : Prop :=
  ∃ symbol, s.find? column.name = some symbol ∧ symbol.kind.isLookup = true ∧
    symbol.type = column.type ∧ symbol.level = level

/-- Two columns of one name are found at once only if they are the same. -/
theorem FindsAt.unique {c d : Column} {level level' : Nat} (h : s.FindsAt c level)
    (h' : s.FindsAt d level') (hname : c.name = d.name) : c = d := by
  obtain ⟨symbol, hfind, -, htype, -⟩ := h
  obtain ⟨symbol', hfind', -, htype', -⟩ := h'
  rw [hname, hfind'] at hfind
  cases hfind
  obtain ⟨name, type⟩ := c
  obtain ⟨name', type'⟩ := d
  cases hname
  cases htype
  cases htype'
  rfl

/-- Recording changes nothing about where a column is found. -/
theorem findsAt_recordAll {c : Column} {level : Nat} :
    (s.recordAll reads).FindsAt c level ↔ s.FindsAt c level := by
  unfold FindsAt
  rw [find?_recordAll]

theorem find?_name {symbol : Symbol} (h : s.find? name = some symbol) : symbol.name = name := by
  obtain ⟨scope, -, hget⟩ := List.exists_of_findSome?_eq_some h
  exact (Scope.get?_eq_some hget).2

/-- A scope further in that does not declare the column at its level
makes no difference. -/
theorem FindsAt.of_enter {c : Column} {level : Nat} (h : (s.enter scope).FindsAt c level)
    (hscope : ∀ symbol ∈ scope.symbols, symbol.kind.isLookup = true → symbol.level ≠ level) :
    s.FindsAt c level := by
  obtain ⟨symbol, hfind, hlookup, htype, hlevel⟩ := h
  rw [find?_enter] at hfind
  cases hget : scope.get? c.name with
  | some found =>
      rw [hget] at hfind
      obtain rfl := Option.some.inj hfind
      exact absurd hlevel (hscope found (Scope.get?_eq_some hget).1 hlookup)
  | none =>
      rw [hget] at hfind
      exact ⟨symbol, hfind, hlookup, htype, hlevel⟩

/-- What finding a name reads. -/
def readOf (s : Scopes) (name : String) : List Read :=
  match s.find? name with
  | some symbol => if symbol.kind.isLookup then [⟨⟨symbol.name, symbol.type⟩, symbol.level⟩] else []
  | none => []

/-- Resolving a name finds its symbol and records what was read. -/
theorem resolve_eq (s : Scopes) (name : String) :
    s.resolve name = (s.find? name, s.recordAll (s.readOf name)) := by
  unfold resolve readOf
  cases s.find? name with
  | none => rfl
  | some symbol =>
      dsimp only
      cases symbol.kind.isLookup <;> rfl

/-- What is read in resolving a name is the column that it finds. -/
theorem mem_readOf {r : Read} (h : r ∈ s.readOf name) :
    ∃ symbol, s.find? name = some symbol ∧ symbol.kind.isLookup = true ∧
      r = ⟨⟨symbol.name, symbol.type⟩, symbol.level⟩ := by
  unfold readOf at h
  split at h
  · split at h
    · exact ⟨_, ‹_›, ‹_›, List.mem_singleton.mp h⟩
    · exact absurd h List.not_mem_nil
  · exact absurd h List.not_mem_nil

/-- The read of a name is that of the column which the name leads to. -/
theorem findsAt_of_readOf {r : Read} (h : r ∈ s.readOf name) : s.FindsAt r.column r.level := by
  obtain ⟨symbol, hfind, hlookup, rfl⟩ := mem_readOf h
  refine ⟨symbol, ?_, hlookup, rfl, rfl⟩
  rw [find?_name hfind]
  exact hfind

end Scopes

end RelQuery
