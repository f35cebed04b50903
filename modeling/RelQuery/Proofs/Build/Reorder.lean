/-
Rows, and taking their values in the order of another heading.

An item that is taken out of a list leaves a gap, which the last item
fills, so that the list changes its order at every step. What does not
change is which items are there: the item and what is left are a
permutation of the list (`swapRemove_perm`). Where no name stands twice,
a permutation gives the same answer for every name, and the items taken
are those that the list at the start gives (`takeNamed_eq`).
-/
import RelQuery.Build.Constructor
import RelQuery.Proofs.Node.FieldList
import RelQuery.Proofs.Type.Standard
import Mathlib.Data.List.Forall2
import Mathlib.Data.List.Perm.Subperm

namespace RelQuery

variable {α : Type}

/-- A lookup does not depend on the order of pairs with distinct
keys. -/
theorem lookup_eq_of_perm {pairs pairs' : List (String × α)} (hperm : pairs.Perm pairs')
    (hnodup : (pairs.map Prod.fst).Nodup) (name : String) :
    pairs.lookup name = pairs'.lookup name := by
  induction hperm with
  | nil => rfl
  | cons p _ ih =>
      rw [List.map_cons, List.nodup_cons] at hnodup
      rw [List.lookup_cons, List.lookup_cons, ih hnodup.2]
  | swap p q rest =>
      rw [List.map_cons, List.map_cons, List.nodup_cons, List.mem_cons, not_or] at hnodup
      obtain ⟨⟨hne, -⟩, -⟩ := hnodup
      rw [List.lookup_cons, List.lookup_cons, List.lookup_cons, List.lookup_cons]
      by_cases hp : name = p.1
      · have hq : (name == q.1) = false := beq_false_of_ne fun hq => hne (hq.symm.trans hp)
        rw [hp] at hq ⊢
        rw [hq]
      · rw [beq_false_of_ne hp]
  | trans hfirst _ ih ih' =>
      exact (ih hnodup).trans (ih' ((hfirst.map Prod.fst).nodup_iff.mp hnodup))

namespace Build

-- ====================================================== taking one out

/-- The item taken out and what is left are what was there. -/
theorem swapRemove_append (before after : List α) (x : α) :
    (x :: swapRemove (before ++ x :: after) before.length).Perm (before ++ x :: after) := by
  have hrest : (swapRemove (before ++ x :: after) before.length).Perm (before ++ after) := by
    unfold swapRemove
    rcases List.eq_nil_or_concat' after with rfl | ⟨middle, last, rfl⟩
    · -- the last item fills its own place
      rw [List.getLast?_concat]
      simp
    · have hset : (before ++ x :: (middle ++ [last])).set before.length last
          = (before ++ last :: middle) ++ [last] := by
        simp
      rw [← List.cons_append, ← List.append_assoc, List.getLast?_concat]
      dsimp only
      rw [List.append_assoc, List.cons_append, hset, List.dropLast_concat]
      exact List.Perm.append_left before (List.perm_append_singleton last middle).symm
  exact (hrest.cons x).trans List.perm_middle.symm

/-- What was taken out and what is left are what was there. -/
theorem swapRemove_perm {xs : List α} {i : Nat} {x : α} (h : xs[i]? = some x) :
    (x :: swapRemove xs i).Perm xs := by
  obtain ⟨hi, rfl⟩ := List.getElem?_eq_some_iff.mp h
  have hsplit : xs = xs.take i ++ xs[i] :: xs.drop (i + 1) := by simp
  have hlength : (xs.take i).length = i := List.length_take_of_le (Nat.le_of_lt hi)
  have hperm := swapRemove_append (xs.take i) (xs.drop (i + 1)) xs[i]
  rwa [hlength, ← hsplit] at hperm

-- ====================================================== taking them all

/-- What is taken stood in the list. -/
theorem mem_takeNamed {names : List String} {pairs : List (String × α)} {a : α}
    (h : a ∈ takeNamed names pairs) : ∃ pair ∈ pairs, pair.2 = a := by
  induction names generalizing pairs with
  | nil => exact absurd h List.not_mem_nil
  | cons name names ih =>
      unfold takeNamed at h
      dsimp only at h
      split at h
      · rename_i pair hpair
        rcases List.mem_cons.mp h with rfl | h
        · exact ⟨pair, List.mem_of_getElem? hpair, rfl⟩
        · obtain ⟨other, hother, ha⟩ := ih h
          exact ⟨other, (swapRemove_perm hpair).subset (List.mem_cons_of_mem _ hother), ha⟩
      · exact ih h

/-- The pair at the first place of a name is the one that a lookup
finds. -/
theorem lookup_eq_getElem?_findIdx (pairs : List (String × α)) (name : String) :
    pairs.lookup name = (pairs[pairs.findIdx (·.1 == name)]?).map Prod.snd := by
  induction pairs with
  | nil => rfl
  | cons pair rest ih =>
      rw [List.lookup_cons, List.findIdx_cons, BEq.comm]
      cases pair.1 == name with
      | true => rfl
      | false => exact ih

/-- Distinct names take what the list gives for them at the start. -/
theorem takeNamed_eq {names : List String} {pairs : List (String × α)} (hnames : names.Nodup)
    (hpairs : (pairs.map Prod.fst).Nodup) :
    takeNamed names pairs = names.filterMap fun name => pairs.lookup name := by
  induction names generalizing pairs with
  | nil => rfl
  | cons name names ih =>
      obtain ⟨hname, hnames⟩ := List.nodup_cons.mp hnames
      unfold takeNamed
      dsimp only
      rw [List.filterMap_cons, lookup_eq_getElem?_findIdx]
      cases hpair : pairs[pairs.findIdx (·.1 == name)]? with
      | none => exact ih hnames hpairs
      | some pair =>
          have hkey : pair.1 = name := by
            obtain ⟨hi, rfl⟩ := List.getElem?_eq_some_iff.mp hpair
            exact eq_of_beq (List.findIdx_getElem (w := hi))
          have hperm := swapRemove_perm hpair
          have hdistinct := (hperm.map Prod.fst).nodup_iff.mpr hpairs
          -- no later name is that of the item taken out
          have hlater : ∀ other ∈ names,
              (swapRemove pairs (pairs.findIdx (·.1 == name))).lookup other =
                  pairs.lookup other := by
            intro other hother
            have hne : other ≠ pair.1 := fun he => hname (hkey ▸ he ▸ hother)
            rw [← lookup_eq_of_perm hperm hdistinct, List.lookup_cons, beq_false_of_ne hne]
          rw [ih hnames (List.nodup_cons.mp hdistinct).2, List.filterMap_congr hlater]
          rfl

/-- A value in the order of a heading is one of the row's. -/
theorem reorder_mem {heading : Heading} {fields : List (String × Node)} {n : Node}
    (h : n ∈ reorder heading fields) : ∃ field ∈ fields, field.2 = n :=
  mem_takeNamed h

-- =================================================== rows of a table

/-- The columns that named values give. -/
def rowColumns (fields : List (String × Node)) : Heading :=
  fields.map fun field => ⟨field.1, field.2.dataType⟩

theorem names_rowColumns (fields : List (String × Node)) :
    (rowColumns fields).names = fields.map Prod.fst := by
  rw [rowColumns, Heading.names, List.map_map]
  rfl

/-- A heading for a row is made exactly if no name is taken twice. -/
theorem rowHeading_append_eq_ok {fields : List (String × Node)} {out heading : Heading}
    (hout : out.names.Nodup) :
    rowHeading out fields = .ok heading ↔
      (out.names ++ fields.map Prod.fst).Nodup ∧ heading = out ++ rowColumns fields := by
  induction fields generalizing out with
  | nil => simp [rowHeading, rowColumns, hout, eq_comm]
  | cons field rest ih =>
      obtain ⟨name, value⟩ := field
      have hnames : (out ++ [⟨name, value.dataType⟩] : Heading).names = out.names ++ [name] :=
        Heading.names_append ..
      rw [rowHeading, except_bind_eq_ok]
      constructor
      · rintro ⟨next, hpush, h⟩
        have hnext := Heading.nodup_names_push hpush hout
        obtain ⟨-, rfl⟩ := Heading.push_eq_ok.mp hpush
        obtain ⟨hnodup, rfl⟩ := (ih hnext).mp h
        rw [hnames, List.append_assoc] at hnodup
        exact ⟨hnodup, List.append_assoc ..⟩
      · rintro ⟨hnodup, rfl⟩
        have hfree : name ∉ out.names := fun hname =>
          (List.nodup_append.mp hnodup).2.2 name hname name List.mem_cons_self rfl
        have hpush : out.push ⟨name, value.dataType⟩ = .ok (out ++ [⟨name, value.dataType⟩]) :=
          Heading.push_eq_ok.mpr ⟨hfree, rfl⟩
        refine ⟨_, hpush, (ih (Heading.nodup_names_push hpush hout)).mpr ⟨?_, ?_⟩⟩
        · rwa [hnames, ← List.append_cons]
        · exact List.append_cons ..

/-- Named values have a heading if no name stands twice: their columns,
in order. -/
theorem rowHeading_eq_ok {fields : List (String × Node)} {heading : Heading} :
    rowHeading [] fields = .ok heading ↔
      (fields.map Prod.fst).Nodup ∧ heading = rowColumns fields :=
  rowHeading_append_eq_ok List.nodup_nil

theorem nodup_names_rowHeading {fields : List (String × Node)} {heading : Heading}
    (h : rowHeading [] fields = .ok heading) : heading.names.Nodup := by
  obtain ⟨hnodup, rfl⟩ := rowHeading_eq_ok.mp h
  rwa [names_rowColumns]

/-- The names of a heading stand in every heading equal to it. -/
theorem names_subset_of_within {h k : List Column} (hw : DataType.within h k = true) :
    ∀ name ∈ Heading.names h, name ∈ Heading.names k := by
  induction h with
  | nil => exact fun _ hn => absurd hn List.not_mem_nil
  | cons c h ih =>
      obtain ⟨name, t⟩ := c
      rw [DataType.within, Bool.and_eq_true] at hw
      refine List.forall_mem_cons.mpr ⟨?_, ih hw.2⟩
      cases hfind : k.find? (·.name == name) with
      | none =>
          rw [hfind] at hw
          cases hw.1
      | some c =>
          have hname : c.name = name := by simpa using List.find?_some hfind
          show name ∈ Heading.names k
          rw [← hname]
          exact List.mem_map_of_mem (List.mem_of_find?_eq_some hfind)

/-- Values in the order of an equal heading are the same values. -/
theorem reorder_perm {first heading : Heading} {fields : List (String × Node)}
    (hfirst : first.names.Nodup) (h : rowHeading [] fields = .ok heading)
    (hsame : DataType.sameHeading first heading = true) :
    (reorder first fields).Perm (fields.map Prod.snd) := by
  obtain ⟨hnodup, rfl⟩ := rowHeading_eq_ok.mp h
  rw [DataType.sameHeading, Bool.and_eq_true, beq_iff_eq] at hsame
  have hlength : (rowColumns fields).names.length ≤ first.names.length := by
    rw [Heading.names, Heading.names, List.length_map, List.length_map]
    exact Nat.le_of_eq hsame.1.symm
  have hsub := List.Nodup.subperm hfirst (names_subset_of_within hsame.2)
  have hperm := hsub.perm_of_length_le hlength
  rw [names_rowColumns] at hperm
  rw [reorder, takeNamed_eq hfirst hnodup]
  exact filterMap_lookup_perm hnodup hfirst fun k hk => hperm.mem_iff.mpr hk

/-- The rows of a table, each in the order of an equal heading. -/
theorem rowsLike_eq_ok {first : Heading} {rows : List (List (String × Node))}
    {nodes : List Node} :
    rowsLike first rows = .ok nodes ↔
      List.Forall₂ (fun fields n => ∃ heading, rowHeading [] fields = .ok heading ∧
        DataType.sameHeading first heading = true ∧ n = .row first (reorder first fields))
      rows nodes := by
  induction rows generalizing nodes with
  | nil =>
      rw [rowsLike, List.forall₂_nil_left_iff, Except.ok.injEq]
      exact eq_comm
  | cons fields rest ih =>
      rw [rowsLike, except_bind_eq_ok, List.forall₂_cons_left_iff]
      constructor
      · rintro ⟨heading, hheading, h⟩
        split at h
        · rename_i hsame
          obtain ⟨others, hothers, h⟩ := except_bind_eq_ok.mp h
          cases h
          exact ⟨_, others, ⟨heading, mapError_eq_ok.mp hheading, hsame, rfl⟩, ih.mp hothers, rfl⟩
        · cases h
      · rintro ⟨n, others, ⟨heading, hheading, hsame, rfl⟩, hothers, rfl⟩
        refine ⟨heading, mapError_eq_ok.mpr hheading, ?_⟩
        rw [if_pos hsame, except_bind_eq_ok]
        exact ⟨others, ih.mpr hothers, rfl⟩

end Build

end RelQuery
