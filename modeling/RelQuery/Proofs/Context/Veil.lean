/-
A scope that cannot be seen.

A name leads to the innermost scope that declares it, and the nearest
row is that of the innermost scope with a heading. So if the scope right
inside another one has a heading and declares all of its names again,
the outer of the two is never looked at; it only records reads, and for
that it does not matter which columns it offers. `clear k` takes away
the columns of the scope that has `k` others around it, and `Veiled k`
says that the scope inside it makes this go unnoticed. Positions are
counted from the outside, so that opening and closing scopes further in
does not change them.
-/
import RelQuery.Proofs.Context.Recording

namespace RelQuery

namespace Scope

/-- The scope without its columns. -/
def cleared (s : Scope) : Scope :=
  { s with kind := .fields, symbols := [], heading := s.heading.map fun _ => [] }

/-- A read is recorded in a cleared scope as in the scope itself. -/
theorem record_cleared (s : Scope) (column : Column) (level : Nat) :
    s.cleared.record column level = (s.record column level).cleared := by
  obtain ⟨kind, symbols, heading, lookup, own⟩ := s
  unfold record
  cases heading with
  | none => simp [cleared]
  | some h => by_cases hlevel : level ≤ own <;> simp [cleared, hlevel]

/-- A name is missing from a seeded scope if it is from the heading. -/
theorem get?_seeded {kind : ScopeKind} {level : Nat} {heading : Heading} {symbolKind : SymbolKind}
    {name : String} :
    (seeded kind level heading symbolKind).get? name = none ↔ heading.has name = false := by
  simp [get?, seeded, Heading.has]

/-- The scope of a type offers the columns of its heading. -/
theorem get?_ofType {type : DataType} {level : Nat} {name : String} :
    (ofType type level).get? name = none ↔ (type.heading?.getD []).has name = false := by
  cases type with
  | tuple heading => exact get?_seeded
  | relation heading => exact get?_seeded
  | user u => exact get?_seeded
  | _ => simp [ofType, bare, get?, DataType.heading?, Heading.has]

/-- Without its columns, the scope of a type is that of an empty tuple or
relation. -/
theorem cleared_ofType {type : DataType} (h : type.heading?.isNone = false) (level : Nat) :
    (ofType type level).cleared
      = ofType (some (if type.isRelation then .relation [] else .tuple [])) level := by
  cases type with
  | tuple heading => rfl
  | relation heading => rfl
  | user u => rfl
  | _ => cases h

end Scope

namespace Scopes

variable {k : Nat} {s t : Scopes} {scope : Scope} {scopes : List Scope} {name : String}

/-- The scopes, with the columns taken away from the one that has `k`
others around it. -/
def clearAt (k : Nat) : List Scope → List Scope
  | [] => []
  | scope :: rest => (if rest.length = k then scope.cleared else scope) :: clearAt k rest

/-- Where there is no scope at the place, none is cleared. -/
theorem clearAt_of_le (h : scopes.length ≤ k) : clearAt k scopes = scopes := by
  induction scopes with
  | nil => rfl
  | cons scope rest ih =>
      rw [List.length_cons] at h
      rw [clearAt, if_neg (by omega), ih (by omega)]

/-- The scope at a place is cleared and no other. -/
theorem clearAt_append {front back : List Scope} {hidden : Scope} (h : back.length = k) :
    clearAt k (front ++ hidden :: back) = front ++ hidden.cleared :: back := by
  induction front with
  | nil => rw [List.nil_append, List.nil_append, clearAt, if_pos h, clearAt_of_le (by omega)]
  | cons scope rest ih =>
      have hlength : (rest ++ hidden :: back).length ≠ k := by
        rw [List.length_append, List.length_cons]
        omega
      rw [List.cons_append, List.cons_append, clearAt, if_neg hlength, ih]

/-- Recording in all scopes and clearing one may change places. -/
theorem map_record_clearAt (column : Column) (level : Nat) :
    (clearAt k scopes).map (·.record column level)
      = clearAt k (scopes.map (·.record column level)) := by
  induction scopes with
  | nil => rfl
  | cons scope rest ih =>
      rw [clearAt, List.map_cons, List.map_cons, clearAt, List.length_map, ih]
      split
      · rw [Scope.record_cleared]
      · rfl

/-- Takes away the columns of the scope that has `k` others around
it. -/
def clear (k : Nat) (s : Scopes) : Scopes where
  current := if s.outer.length = k then s.current.cleared else s.current
  outer := clearAt k s.outer
  trackers := s.trackers

theorem all_clear : (s.clear k).all = clearAt k s.all :=
  rfl

theorem clear_of_ne (h : s.outer.length ≠ k) :
    s.clear k = { s with outer := clearAt k s.outer } := by
  unfold clear
  rw [if_neg h]

theorem level_clear : (s.clear k).level = s.level := by
  show Scope.level (if s.outer.length = k then s.current.cleared else s.current) = s.current.level
  split
  · rfl
  · rfl

/-- Recording a read and clearing a scope may change places. -/
theorem record_clear (column : Column) (level : Nat) :
    (s.clear k).record column level = (s.record column level).clear k := by
  unfold record clear
  dsimp only
  rw [map_record_clearAt, List.length_map]
  split
  · rw [Scope.record_cleared]
  · rfl

/-- Recording reads and clearing a scope may change places. -/
theorem recordAll_clear (reads : List Read) :
    (s.clear k).recordAll reads = (s.recordAll reads).clear k := by
  induction reads generalizing s with
  | nil => rfl
  | cons r rest ih =>
      show ((s.clear k).record r.column r.level).recordAll rest = _
      rw [record_clear]
      exact ih

/-- A scope further in is not concerned. -/
theorem enter_clear (h : k ≤ s.outer.length) (scope : Scope) :
    (s.clear k).enter scope = (s.enter scope).clear k := by
  have hlength : (s.enter scope).outer.length ≠ k := by
    show s.outer.length + 1 ≠ k
    omega
  rw [clear_of_ne hlength]
  rfl

/-- Pushing a scope and clearing one further out may change places. -/
theorem push_clear (h : k ≤ s.outer.length) (type : Option DataType) :
    (s.clear k).push type = (s.push type).clear k := by
  unfold push
  rw [level_clear, enter_clear h]

/-- Popping a scope and clearing one further out may change places. -/
theorem pop_clear (h : k < s.outer.length) :
    (s.clear k).pop = s.pop.map fun p => (p.1, p.2.clear k) := by
  obtain ⟨current, outer, trackers⟩ := s
  rw [clear_of_ne (by omega)]
  cases outer with
  | nil => rfl
  | cons parent rest => rfl

/-- Adding a symbol and clearing a scope further out may change places. -/
theorem add_clear (h : k < s.outer.length) (symbol : Symbol) :
    (s.clear k).add symbol = (s.add symbol).map (·.clear k) := by
  obtain ⟨current, outer, trackers⟩ := s
  have hne : outer.length ≠ k := by
    dsimp only at h
    omega
  unfold add clear
  rw [if_neg hne]
  split
  · rfl
  · simp only [Except.map, if_neg hne]
    rfl

-- ============================================================ veiled

/-- The scope that has `k` others around it cannot be seen: the one
inside it has a heading and declares all of its names. -/
def Veiled (k : Nat) (s : Scopes) : Prop :=
  ∃ front cover hidden back, s.all = front ++ cover :: hidden :: back ∧ back.length = k ∧
    cover.heading.isSome = true ∧ ∀ name, cover.get? name = none → hidden.get? name = none

namespace Veiled

/-- A scope that is veiled has another one within it. -/
theorem depth (h : s.Veiled k) : k < s.outer.length := by
  obtain ⟨front, cover, hidden, back, hall, hlength, -, -⟩ := h
  have hlengths := congrArg List.length hall
  simp only [all, List.length_cons, List.length_append] at hlengths
  omega

/-- A veiled scope stays so when another one is entered. -/
theorem enter (h : s.Veiled k) (scope : Scope) : (s.enter scope).Veiled k := by
  obtain ⟨front, cover, hidden, back, hall, hveil⟩ := h
  exact ⟨scope :: front, cover, hidden, back, congrArg (scope :: ·) hall, hveil⟩

/-- A scope that is far enough inside may be closed. -/
theorem of_all (h : s.Veiled k) (ht : t.all = s.outer) (hdepth : k + 1 < s.outer.length) :
    t.Veiled k := by
  obtain ⟨front, cover, hidden, back, hall, hlength, hveil⟩ := h
  cases front with
  | nil =>
      have hlengths := congrArg List.length hall
      simp only [all, List.length_cons, List.length_append, List.length_nil] at hlengths
      omega
  | cons scope rest =>
      refine ⟨rest, cover, hidden, back, ?_, hlength, hveil⟩
      rw [ht]
      exact (List.cons.inj hall).2

/-- A veiled scope stays so when a read is recorded. -/
theorem record (h : s.Veiled k) (column : Column) (level : Nat) :
    (s.record column level).Veiled k := by
  obtain ⟨front, cover, hidden, back, hall, hlength, hheading, hnames⟩ := h
  have hcover := Scope.Widens.record cover column level
  have hhidden := Scope.Widens.record hidden column level
  refine ⟨front.map (·.record column level), cover.record column level, hidden.record column level,
    back.map (·.record column level), ?_, ?_, ?_, fun name => ?_⟩
  · show s.all.map (·.record column level) = _
    rw [hall, List.map_append, List.map_cons, List.map_cons]
  · rw [List.length_map, hlength]
  · rw [hcover.heading]
    exact hheading
  · unfold Scope.get?
    rw [hcover.symbols, hhidden.symbols]
    exact hnames name

/-- A veiled scope stays so when reads are recorded. -/
theorem recordAll (h : s.Veiled k) (reads : List Read) : (s.recordAll reads).Veiled k := by
  induction reads generalizing s with
  | nil => exact h
  | cons r rest ih => exact ih (h.record r.column r.level)

/-- Symbols may be added inside. -/
theorem add (h : s.Veiled k) (symbol : Symbol) (trackers : List (List Read)) :
    Veiled k ⟨{ s.current with symbols := s.current.symbols ++ [symbol] }, s.outer, trackers⟩ := by
  obtain ⟨front, cover, hidden, back, hall, hlength, hheading, hnames⟩ := h
  cases front with
  | nil =>
      obtain ⟨hcurrent, houter⟩ := List.cons.inj hall
      refine ⟨[], _, hidden, back, congrArg (_ :: ·) houter, hlength, ?_, fun name hname => ?_⟩
      · rw [hcurrent]
        exact hheading
      · refine hnames name ?_
        unfold Scope.get? at hname ⊢
        dsimp only at hname
        rw [hcurrent, List.find?_append, Option.or_eq_none_iff] at hname
        exact hname.1
  | cons scope rest =>
      obtain ⟨-, houter⟩ := List.cons.inj hall
      exact ⟨_ :: rest, cover, hidden, back, congrArg (_ :: ·) houter, hlength, hheading, hnames⟩

/-- If the cover answers whenever the hidden scope would, clearing that
makes no difference. -/
theorem findSome?_eq {α : Type} {front back : List Scope} {cover hidden : Scope}
    (f : Scope → Option α)
    (h : f cover = none → f hidden.cleared = f hidden) :
    (front ++ cover :: hidden.cleared :: back).findSome? f
      = (front ++ cover :: hidden :: back).findSome? f := by
  simp only [List.findSome?_append, List.findSome?_cons]
  cases hcover : f cover with
  | some a => rfl
  | none => rw [h hcover]

/-- No name leads to a scope that cannot be seen. -/
theorem find?_clear (h : s.Veiled k) : (s.clear k).find? name = s.find? name := by
  obtain ⟨front, cover, hidden, back, hall, hlength, -, hnames⟩ := h
  have hsplit : front ++ cover :: hidden :: back = (front ++ [cover]) ++ hidden :: back := by simp
  unfold find?
  rw [all_clear, hall, hsplit, clearAt_append hlength, List.append_assoc, List.append_assoc]
  refine findSome?_eq (fun scope => scope.get? name) fun hcover => ?_
  rw [hnames name hcover]
  rfl

/-- Nor is its row the nearest one. -/
theorem heading?_clear (h : s.Veiled k) : (s.clear k).heading? = s.heading? := by
  obtain ⟨front, cover, hidden, back, hall, hlength, hheading, -⟩ := h
  have hsplit : front ++ cover :: hidden :: back = (front ++ [cover]) ++ hidden :: back := by simp
  unfold heading?
  rw [all_clear, hall, hsplit, clearAt_append hlength, List.append_assoc, List.append_assoc]
  refine findSome?_eq (fun scope => scope.heading) fun hcover => ?_
  rw [hcover] at hheading
  cases hheading

end Veiled

/-- A scope does not matter for the names that it does not offer. -/
theorem find?_clear_current (hdepth : s.outer.length = k) (h : s.current.get? name = none) :
    (s.clear k).find? name = s.find? name := by
  have houter : clearAt k s.outer = s.outer := clearAt_of_le (Nat.le_of_eq hdepth)
  unfold find? all clear
  rw [if_pos hdepth, houter, List.findSome?_cons, List.findSome?_cons, h]
  rfl

/-- Names lead to the same symbols, and finding them reads the same. -/
theorem resolve_clear (h : (s.clear k).find? name = s.find? name) :
    (s.clear k).resolve name = ((s.resolve name).1, (s.resolve name).2.clear k) := by
  rw [resolve_eq, resolve_eq, h, recordAll_clear, readOf, readOf, h]

end Scopes

end RelQuery
