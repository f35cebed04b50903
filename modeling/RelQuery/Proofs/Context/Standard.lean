/-
Scopes whose types meet a standard.

A symbol of a scope has a type, and so have the columns of its heading
and those that code in the scope reads. Opening a scope for a type that
meets the standard, noting reads of what was found in scope and closing
a scope bring in no type that does not.
-/
import RelQuery.Context.Basic
import RelQuery.Proofs.Type.Standard

namespace RelQuery

variable {S : Standard}

/-- The symbols, the heading and the reads of a scope meet the
standard. -/
structure Scope.Meets (S : Standard) (s : Scope) : Prop where
  symbols : ∀ symbol ∈ s.symbols, S.Allows symbol.type
  heading : ∀ h ∈ s.heading, S.AllowsHeading h
  lookup : S.AllowsHeading s.lookup

/-- The columns that are read meet the standard. -/
def Read.AllMeet (S : Standard) (reads : List Read) : Prop :=
  ∀ r ∈ reads, S.Allows r.column.type

/-- The open scopes and the reads noted meet the standard. -/
structure Scopes.Meets (S : Standard) (s : Scopes) : Prop where
  all : ∀ scope ∈ s.all, scope.Meets S
  trackers : ∀ seen ∈ s.trackers, Read.AllMeet S seen

namespace Scope

variable {s : Scope}

theorem Meets.bare (kind : ScopeKind) (level : Nat) : (bare kind level).Meets S :=
  ⟨fun _ h => absurd h List.not_mem_nil, fun _ h => (nomatch h), S.nil⟩

theorem Meets.seeded (kind : ScopeKind) (level : Nat) {heading : Heading}
    (symbolKind : SymbolKind) (h : S.AllowsHeading heading) :
    (seeded kind level heading symbolKind).Meets S where
  symbols := List.forall_mem_map.mpr (S.types h)
  heading := by
    rintro _ ⟨⟩
    exact h
  lookup := S.nil

/-- The scope of a type has the columns of its heading. -/
theorem Meets.ofType {type : Option DataType} (level : Nat) (h : ∀ t ∈ type, S.Allows t) :
    (ofType type level).Meets S := by
  unfold Scope.ofType
  split
  · exact .seeded _ _ _ (S.tuple.mp (h _ rfl))
  · exact .seeded _ _ _ (S.relation.mp (h _ rfl))
  · exact .seeded _ _ _ (S.user (h _ rfl))
  · exact .bare _ _

/-- A scope meets the standard when a column of an allowed type is
recorded. -/
theorem Meets.record (hs : s.Meets S) {column : Column} (level : Nat)
    (hc : S.Allows column.type) : (s.record column level).Meets S := by
  unfold Scope.record
  split
  · exact ⟨hs.symbols, hs.heading, Standard.insertNew hs.lookup hc⟩
  · exact hs

end Scope

namespace Scopes

variable {s : Scopes}

theorem Meets.fresh : Scopes.fresh.Meets S :=
  ⟨List.forall_mem_singleton.mpr (.bare _ _), fun _ h => absurd h List.not_mem_nil⟩

theorem Meets.enter (hs : s.Meets S) {scope : Scope} (h : scope.Meets S) :
    (s.enter scope).Meets S :=
  ⟨List.forall_mem_cons.mpr ⟨h, hs.all⟩, hs.trackers⟩

theorem Meets.push (hs : s.Meets S) {type : Option DataType} (h : ∀ t ∈ type, S.Allows t) :
    (s.push type).Meets S :=
  hs.enter (.ofType _ h)

/-- A read is noted in the scopes that it crosses and by every
tracker. -/
theorem Meets.record (hs : s.Meets S) {column : Column} (level : Nat)
    (hc : S.Allows column.type) : (s.record column level).Meets S := by
  obtain ⟨hcurrent, houter⟩ := List.forall_mem_cons.mp hs.all
  constructor
  · refine List.forall_mem_cons.mpr ⟨hcurrent.record level hc, List.forall_mem_map.mpr ?_⟩
    exact fun scope hscope => (houter scope hscope).record level hc
  · refine List.forall_mem_map.mpr fun seen hseen => ?_
    unfold track
    split
    · exact hs.trackers seen hseen
    · exact List.forall_mem_append.mpr ⟨hs.trackers seen hseen, List.forall_mem_singleton.mpr hc⟩

/-- Scopes meet the standard when reads of allowed types are recorded. -/
theorem Meets.recordAll (hs : s.Meets S) {reads : List Read} (hreads : Read.AllMeet S reads) :
    (reads.foldl (fun s r => s.record r.column r.level) s).Meets S := by
  induction reads generalizing s with
  | nil => exact hs
  | cons r rest ih =>
      obtain ⟨hr, hrest⟩ := List.forall_mem_cons.mp hreads
      exact ih (hs.record r.level hr) hrest

theorem Meets.find? (hs : s.Meets S) {name : String} {symbol : Symbol}
    (h : s.find? name = some symbol) : S.Allows symbol.type := by
  obtain ⟨scope, hscope, hget⟩ := List.exists_of_findSome?_eq_some h
  exact (hs.all scope hscope).symbols symbol (List.mem_of_find?_eq_some hget)

/-- What is found has a type that meets the standard, so noting that it
was read brings in none that does not. -/
theorem Meets.resolve (hs : s.Meets S) (name : String) :
    (s.resolve name).2.Meets S ∧ ∀ symbol ∈ (s.resolve name).1, S.Allows symbol.type := by
  unfold Scopes.resolve
  split
  · exact ⟨hs, fun _ h => nomatch h⟩
  · rename_i symbol hfind
    have hsymbol := hs.find? hfind
    refine ⟨?_, ?_⟩
    · dsimp only
      split
      · exact hs.record _ hsymbol
      · exact hs
    · rintro _ ⟨⟩
      exact hsymbol

theorem Meets.heading? (hs : s.Meets S) {h : Heading} (hh : s.heading? = some h) :
    S.AllowsHeading h := by
  obtain ⟨scope, hscope, hheading⟩ := List.exists_of_findSome?_eq_some hh
  exact (hs.all scope hscope).heading h hheading

/-- Reads that are taken are allowed, and the scopes meet the standard
without them. -/
theorem Meets.takeReads (hs : s.Meets S) :
    Read.AllMeet S s.takeReads.1 ∧ s.takeReads.2.Meets S := by
  unfold Scopes.takeReads
  split
  · exact ⟨fun _ h => absurd h List.not_mem_nil, hs⟩
  · rename_i seen rest htrackers
    have hseen := hs.trackers
    rw [htrackers] at hseen
    obtain ⟨hfirst, hrest⟩ := List.forall_mem_cons.mp hseen
    exact ⟨hfirst, hs.all, hrest⟩

/-- Adding a symbol of an allowed type keeps the standard. -/
theorem Meets.add (hs : s.Meets S) {symbol : Symbol} {s' : Scopes} (h : S.Allows symbol.type)
    (hadd : s.add symbol = .ok s') : s'.Meets S := by
  unfold Scopes.add at hadd
  split at hadd
  · cases hadd
  · cases hadd
    obtain ⟨hcurrent, houter⟩ := List.forall_mem_cons.mp hs.all
    refine ⟨List.forall_mem_cons.mpr ⟨⟨?_, hcurrent.heading, hcurrent.lookup⟩, houter⟩, hs.trackers⟩
    exact List.forall_mem_append.mpr ⟨hcurrent.symbols, List.forall_mem_singleton.mpr h⟩

end Scopes

end RelQuery
