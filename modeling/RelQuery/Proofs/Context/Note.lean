/-
Names that open scopes have noted.

Reading a column is noted in every scope with a heading from the one
that declares the column inwards, and by every open tracker. A name is
noted (`Scopes.Notes`) if that has happened for a scope that is open and
offers it. Nothing that happens while the scope stays open takes this
away. When the innermost scope closes, the name is one that this scope
offered, or is noted by the scopes that are left; and if the scope has a
heading, its lookup has the name in either case.
-/
import RelQuery.Proofs.Context.Widening

namespace RelQuery

namespace Scope

variable {s t : Scope} {name : String}

/-- The scope has a symbol of this name that stands for a column. -/
def Offers (s : Scope) (name : String) : Prop :=
  ∃ symbol ∈ s.symbols, symbol.kind.isLookup = true ∧ symbol.name = name

theorem Offers.mono (h : s.Offers name) (hsymbols : s.symbols ⊆ t.symbols) : t.Offers name := by
  obtain ⟨symbol, hmem, hsymbol⟩ := h
  exact ⟨symbol, hsymbols hmem, hsymbol⟩

theorem Widens.offers (h : s.Widens t) : t.Offers name ↔ s.Offers name := by
  unfold Offers
  rw [h.symbols]

/-- Columns that are read stay in the lookup. -/
theorem Widens.names_lookup (h : s.Widens t) (hname : name ∈ s.lookup.names) :
    name ∈ t.lookup.names := by
  obtain ⟨more, hmore⟩ := h.lookup
  rw [← hmore, Heading.names, List.map_append]
  exact List.mem_append_left _ hname

/-- A column is named in the heading that it was inserted in. -/
theorem mem_names_insertNew (h : Heading) (column : Column) :
    column.name ∈ (h.insertNew column).names := by
  unfold Heading.insertNew
  split
  · rename_i hhas
    obtain ⟨c, hc, hname⟩ := List.any_eq_true.mp hhas
    rw [← beq_iff_eq.mp hname]
    exact List.mem_map_of_mem hc
  · rw [Heading.names, List.map_append]
    exact List.mem_append_right _ List.mem_cons_self

/-- A scope with a heading that lies far enough inside records a
read. -/
theorem mem_names_record {column : Column} {level : Nat} (hheading : s.heading.isSome = true)
    (hlevel : level ≤ s.level) : column.name ∈ (s.record column level).lookup.names := by
  unfold record
  rw [if_pos (by rw [hheading, Bool.and_true]; exact decide_eq_true hlevel)]
  exact mem_names_insertNew _ column

/-- The columns of a scope are those it was opened for. -/
theorem offers_ofType {type : DataType} {level : Nat} :
    (ofType (some type) level).Offers name ↔ name ∈ Heading.names (type.heading?.getD []) := by
  unfold ofType Offers
  cases type <;> simp [seeded, bare, DataType.heading?, Heading.names, SymbolKind.isLookup]

theorem not_offers_ofType_none {level : Nat} : ¬(ofType none level).Offers name := by
  rintro ⟨symbol, hmem, -⟩
  exact absurd hmem List.not_mem_nil

theorem heading_ofType {type : DataType} {level : Nat} :
    (ofType (some type) level).heading = type.heading? := by
  unfold ofType
  cases type <;> rfl

end Scope

namespace Scopes

variable {s t : Scopes} {name : String} {scope : Scope}

/-- Every open tracker has at least the reads it had. -/
def Tracks (s t : Scopes) : Prop :=
  List.Forall₂ (· ⊆ ·) s.trackers t.trackers

theorem Tracks.refl (s : Scopes) : Tracks s s :=
  List.forall₂_same.mpr fun _ _ => List.Subset.refl _

theorem Tracks.trans {u : Scopes} (h : Tracks s t) (h' : Tracks t u) : Tracks s u := by
  unfold Tracks at h h' ⊢
  generalize s.trackers = xs at h
  generalize t.trackers = ys at h h'
  generalize u.trackers = zs at h'
  induction h generalizing zs with
  | nil => exact h'
  | cons hxy _ ih =>
      cases h' with
      | cons hyz hrest => exact .cons (List.Subset.trans hxy hyz) (ih _ hrest)

/-- Tracking forgets no read. -/
theorem subset_track (read : Read) (seen : List Read) : seen ⊆ track read seen := by
  unfold track
  split
  · exact List.Subset.refl _
  · exact List.subset_append_left _ _

/-- A tracked read is known by its name and its level. -/
theorem mem_track (read : Read) (seen : List Read) :
    ∃ r ∈ track read seen, r.column.name = read.column.name ∧ r.level = read.level := by
  unfold track
  split
  · rename_i hseen
    obtain ⟨r, hr, hsame⟩ := List.any_eq_true.mp hseen
    rw [Bool.and_eq_true, beq_iff_eq, beq_iff_eq] at hsame
    exact ⟨r, hr, hsame⟩
  · exact ⟨read, List.mem_append_right _ List.mem_cons_self, rfl, rfl⟩

/-- Recording a read keeps what was tracked. -/
theorem Tracks.record (s : Scopes) (column : Column) (level : Nat) :
    Tracks s (s.record column level) := by
  unfold Tracks
  show List.Forall₂ _ s.trackers (s.trackers.map (track ⟨column, level⟩))
  rw [List.forall₂_map_right_iff]
  exact List.forall₂_same.mpr fun _ _ => subset_track _ _

/-- Recording reads keeps what was tracked, one after the other. -/
theorem Tracks.foldl_record (s : Scopes) (reads : List Read) :
    Tracks s (reads.foldl (fun s r => s.record r.column r.level) s) := by
  induction reads generalizing s with
  | nil => exact .refl s
  | cons r reads ih => exact (Tracks.record s r.column r.level).trans (ih _)

/-- Resolving a name keeps what was tracked. -/
theorem Tracks.resolve (s : Scopes) (name : String) : Tracks s (s.resolve name).2 := by
  unfold Scopes.resolve
  split
  · exact .refl s
  · dsimp only
    split
    · exact .record s _ _
    · exact .refl s

-- ============================================================ notes

/-- An open scope at the level offers the column. -/
def OffersAt (s : Scopes) (name : String) (level : Nat) : Prop :=
  ∃ scope ∈ s.all, scope.level = level ∧ scope.Offers name

/-- A read of a column declared at a level has been noted by everything
that is open. -/
structure NotesAt (s : Scopes) (name : String) (level : Nat) : Prop where
  offered : s.OffersAt name level
  listed : ∀ scope ∈ s.all, scope.heading.isSome = true → level ≤ scope.level →
    name ∈ scope.lookup.names
  tracked : ∀ seen ∈ s.trackers, ∃ r ∈ seen, r.column.name = name ∧ r.level = level

/-- A read of the name has been noted. -/
def Notes (s : Scopes) (name : String) : Prop :=
  ∃ level, s.NotesAt name level

/-- What is on the right of two related lists has a partner on the left. -/
theorem forall₂_mem_right {α β : Type} {R : α → β → Prop} {xs : List α} {ys : List β}
    (h : List.Forall₂ R xs ys) {y : β} (hy : y ∈ ys) : ∃ x ∈ xs, R x y := by
  induction h with
  | nil => exact absurd hy List.not_mem_nil
  | cons hxy _ ih =>
      rcases List.mem_cons.mp hy with rfl | hy
      · exact ⟨_, List.mem_cons_self, hxy⟩
      · obtain ⟨x, hx, hr⟩ := ih hy
        exact ⟨x, List.mem_cons_of_mem _ hx, hr⟩

/-- What is on the left of two related lists has a partner on the right. -/
theorem forall₂_mem_left {α β : Type} {R : α → β → Prop} {xs : List α} {ys : List β}
    (h : List.Forall₂ R xs ys) {x : α} (hx : x ∈ xs) : ∃ y ∈ ys, R x y :=
  forall₂_mem_right h.flip hx

/-- Only the levels and symbols of open scopes matter. -/
theorem OffersAt.of_levels {level : Nat} (h : s.OffersAt name level)
    (hlevels : ∀ scope ∈ s.all, ∃ scope' ∈ t.all,
      scope'.level = scope.level ∧ scope.symbols ⊆ scope'.symbols) : t.OffersAt name level := by
  obtain ⟨scope, hmem, hlevel, hoffers⟩ := h
  obtain ⟨scope', hmem', hlevel', hsymbols⟩ := hlevels scope hmem
  exact ⟨scope', hmem', hlevel'.trans hlevel, hoffers.mono hsymbols⟩

/-- Every scope is still there, at its level, with the symbols that it had. -/
theorem Widens.same_levels (h : s.Widens t) : ∀ scope ∈ s.all, ∃ scope' ∈ t.all,
    scope'.level = scope.level ∧ scope.symbols ⊆ scope'.symbols := by
  intro scope hmem
  obtain ⟨scope', hmem', hscope⟩ := forall₂_mem_left h.levels hmem
  exact ⟨scope', hmem', hscope.level, hscope.symbols ▸ List.Subset.refl _⟩

/-- What is noted stays noted. -/
theorem NotesAt.mono {level : Nat} (h : s.NotesAt name level) (hwidens : s.Widens t)
    (htracks : Tracks s t) : t.NotesAt name level where
  offered := h.offered.of_levels hwidens.same_levels
  listed := by
    intro scope' hmem' hheading hlevel
    obtain ⟨scope, hmem, hscope⟩ := forall₂_mem_right hwidens.levels hmem'
    rw [hscope.heading] at hheading
    rw [hscope.level] at hlevel
    exact hscope.names_lookup (h.listed scope hmem hheading hlevel)
  tracked := by
    intro seen' hmem'
    obtain ⟨seen, hmem, hsub⟩ := forall₂_mem_right htracks hmem'
    obtain ⟨r, hr, hsame⟩ := h.tracked seen hmem
    exact ⟨r, hsub hr, hsame⟩

/-- What is noted stays so while scopes and reads only grow. -/
theorem Notes.mono (h : s.Notes name) (hwidens : s.Widens t) (htracks : Tracks s t) :
    t.Notes name := by
  obtain ⟨level, hnotes⟩ := h
  exact ⟨level, hnotes.mono hwidens htracks⟩

/-- Recording a column notes it, if a scope at its level offers it. -/
theorem notesAt_record {column : Column} {level : Nat}
    (h : s.OffersAt column.name level) : (s.record column level).NotesAt column.name level where
  offered := h.of_levels (Widens.record s column level).same_levels
  listed := by
    intro scope' hmem' hheading hlevel
    have hall : scope' ∈ s.all.map (·.record column level) := hmem'
    obtain ⟨scope, hmem, rfl⟩ := List.mem_map.mp hall
    have hwidens := Scope.Widens.record scope column level
    rw [hwidens.heading] at hheading
    rw [hwidens.level] at hlevel
    exact Scope.mem_names_record hheading hlevel
  tracked := by
    intro seen' hmem'
    have hall : seen' ∈ s.trackers.map (track ⟨column, level⟩) := hmem'
    obtain ⟨seen, -, rfl⟩ := List.mem_map.mp hall
    exact mem_track _ seen

/-- Recording reads one after another notes each of them. -/
theorem notes_foldl_record {reads : List Read} {r : Read} (hr : r ∈ reads)
    (h : s.OffersAt r.column.name r.level) :
    (reads.foldl (fun s r => s.record r.column r.level) s).Notes r.column.name := by
  induction reads generalizing s with
  | nil => exact absurd hr List.not_mem_nil
  | cons first rest ih =>
      rcases List.mem_cons.mp hr with rfl | hr
      · have hnotes : (s.record r.column r.level).Notes r.column.name :=
          ⟨r.level, notesAt_record h⟩
        exact hnotes.mono (.foldl_record _ rest) (.foldl_record _ rest)
      · exact ih hr (h.of_levels (Widens.record s first.column first.level).same_levels)

-- ============================================================ sound

/-- No scope lies inside the innermost one, and symbols know the level
of their scope. Opening a scope and adding a symbol see to that. -/
structure IsSound (s : Scopes) : Prop where
  levels : ∀ scope ∈ s.all, scope.level ≤ s.level
  symbols : ∀ scope ∈ s.all, ∀ symbol ∈ scope.symbols, symbol.level = scope.level

/-- The scopes to begin with are sound. -/
theorem IsSound.fresh : Scopes.fresh.IsSound where
  levels := by
    intro scope hmem
    rw [List.mem_singleton.mp hmem]
    exact Nat.le_refl _
  symbols := by
    intro scope hmem symbol hsymbol
    rw [List.mem_singleton.mp hmem] at hsymbol
    exact absurd hsymbol List.not_mem_nil

/-- Scopes stay sound when more is listed in them. -/
theorem IsSound.widens (h : s.IsSound) (hwidens : s.Widens t) : t.IsSound where
  levels := by
    intro scope' hmem'
    obtain ⟨scope, hmem, hscope⟩ := forall₂_mem_right hwidens.levels hmem'
    have hcurrent : t.level = s.level := by
      have hlevels := hwidens.levels
      cases hlevels with
      | cons hcurrent _ => exact hcurrent.level
    rw [hscope.level, hcurrent]
    exact h.levels scope hmem
  symbols := by
    intro scope' hmem' symbol hsymbol
    obtain ⟨scope, hmem, hscope⟩ := forall₂_mem_right hwidens.levels hmem'
    rw [hscope.symbols] at hsymbol
    rw [hscope.level]
    exact h.symbols scope hmem symbol hsymbol

/-- A scope that may be opened: its level is the next one, and that of
its symbols. -/
structure Admits (s : Scopes) (scope : Scope) : Prop where
  level : scope.level = s.level + 1
  symbols : ∀ symbol ∈ scope.symbols, symbol.level = scope.level

/-- Entering a scope that is admitted leaves the scopes sound. -/
theorem IsSound.enter (h : s.IsSound) (hscope : s.Admits scope) : (s.enter scope).IsSound where
  levels := by
    show ∀ other ∈ scope :: s.all, other.level ≤ scope.level
    rw [List.forall_mem_cons]
    refine ⟨Nat.le_refl _, fun other hmem => ?_⟩
    rw [hscope.level]
    exact Nat.le_succ_of_le (h.levels other hmem)
  symbols := by
    show ∀ other ∈ scope :: s.all, _
    rw [List.forall_mem_cons]
    exact ⟨hscope.symbols, h.symbols⟩

/-- A symbol may be added to the innermost scope, at its level. -/
theorem IsSound.add {symbol : Symbol} {trackers : List (List Read)} (h : s.IsSound)
    (hsymbol : symbol.level = s.level) :
    IsSound ⟨{ s.current with symbols := s.current.symbols ++ [symbol] }, s.outer, trackers⟩ where
  levels := by
    show ∀ scope ∈ _ :: s.outer, scope.level ≤ s.level
    exact List.forall_mem_cons.mpr ⟨Nat.le_refl _, (List.forall_mem_cons.mp h.levels).2⟩
  symbols := by
    obtain ⟨hcurrent, houter⟩ := List.forall_mem_cons.mp h.symbols
    show ∀ scope ∈ _ :: s.outer, _
    refine List.forall_mem_cons.mpr ⟨List.forall_mem_append.mpr ⟨hcurrent, ?_⟩, houter⟩
    exact List.forall_mem_singleton.mpr hsymbol

theorem admits_seeded (s : Scopes) (kind : ScopeKind) (heading : Heading)
    (symbolKind : SymbolKind) :
    s.Admits (.seeded kind (s.level + 1) heading symbolKind) where
  level := rfl
  symbols := by
    intro symbol hsymbol
    obtain ⟨column, -, rfl⟩ := List.mem_map.mp hsymbol
    rfl

theorem admits_bare (s : Scopes) (kind : ScopeKind) : s.Admits (.bare kind (s.level + 1)) :=
  ⟨rfl, fun _ h => absurd h List.not_mem_nil⟩

theorem admits_ofType (s : Scopes) (type : Option DataType) :
    s.Admits (.ofType type (s.level + 1)) := by
  unfold Scope.ofType
  split
  · exact admits_seeded s _ _ _
  · exact admits_seeded s _ _ _
  · exact admits_seeded s _ _ _
  · exact admits_bare s _

/-- A symbol found in a scope stands for a column that is offered at its
level. -/
theorem IsSound.find? {symbol : Symbol} (h : s.IsSound) (hfind : s.find? name = some symbol)
    (hlookup : symbol.kind.isLookup = true) :
    symbol.name = name ∧ s.OffersAt name symbol.level := by
  obtain ⟨scope, hmem, hget⟩ := List.exists_of_findSome?_eq_some hfind
  have hsymbol := List.mem_of_find?_eq_some hget
  have hname : symbol.name = name := by simpa using List.find?_some hget
  exact ⟨hname, scope, hmem, (h.symbols scope hmem symbol hsymbol).symm, symbol, hsymbol, hlookup,
    hname⟩

/-- Finding a column notes it. -/
theorem IsSound.resolve {symbol : Symbol} (h : s.IsSound)
    (hresolve : (s.resolve name).1 = some symbol) (hlookup : symbol.kind.isLookup = true) :
    symbol.name = name ∧ (s.resolve name).2.Notes name := by
  unfold Scopes.resolve at hresolve ⊢
  cases hfind : s.find? name with
  | none =>
      rw [hfind] at hresolve
      cases hresolve
  | some found =>
      rw [hfind] at hresolve
      cases hresolve
      obtain ⟨rfl, hoffered⟩ := h.find? hfind hlookup
      dsimp only
      rw [if_pos hlookup]
      exact ⟨rfl, symbol.level, notesAt_record hoffered⟩

-- ========================================================== closing

/-- A name that is noted is in the lookup of the innermost scope, if it
has a heading. -/
theorem Notes.mem_lookup (h : s.Notes name) (hs : s.IsSound)
    (hheading : s.current.heading.isSome = true) : name ∈ s.current.lookup.names := by
  obtain ⟨level, hnotes⟩ := h
  obtain ⟨scope, hmem, rfl, -⟩ := hnotes.offered
  exact hnotes.listed s.current List.mem_cons_self hheading (hs.levels scope hmem)

/-- When the innermost scope closes, a name is noted by the scopes that
are left unless it was a column of the closed one. -/
theorem Notes.leave (h : s.Notes name) (hall : t.all = s.outer)
    (htrackers : t.trackers = s.trackers) :
    s.current.Offers name ∨ t.Notes name := by
  obtain ⟨level, hnotes⟩ := h
  obtain ⟨scope, hmem, hlevel, hoffers⟩ := hnotes.offered
  rcases List.mem_cons.mp hmem with rfl | hmem
  · exact .inl hoffers
  · refine .inr ⟨level, ⟨scope, ?_, hlevel, hoffers⟩, fun scope' hmem' => ?_, ?_⟩
    · rw [hall]
      exact hmem
    · rw [hall] at hmem'
      exact hnotes.listed scope' (List.mem_cons_of_mem _ hmem')
    · rw [htrackers]
      exact hnotes.tracked

end Scopes

end RelQuery
