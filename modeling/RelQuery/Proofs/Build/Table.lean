/-
Rows of a table keep their values.

A table takes the columns of its first row, in their order. A later row
may give the same columns in any order; it is made over, and each of its
values must end up under the name that it was given to. Taking the
values out one by one shuffles what is left (`Proofs.Build.Reorder`), so
what stands under a name is said of the row as it was written.
-/
import RelQuery.Proofs.Build.Growth
import RelQuery.Proofs.Build.Reorder
import RelQuery.Proofs.Type.Key

namespace RelQuery.Build

/-- Two headings have the same columns in some order, up to equal
types. -/
def SameColumns (h k : Heading) : Prop :=
  ∃ l : Heading, l.Perm k ∧ List.Forall₂ (fun c d => Column.same c d = true) h l

/-- The columns that the rows of a table get: those of the first one. -/
def firstColumns : List (List (String × Node)) → Heading
  | [] => []
  | fields :: _ => rowColumns fields

/-- A row with one value for each column of a heading: the one that the
named values give to the column's name. -/
def IsRowOf (heading : Heading) (fields : List (String × Node)) (n : Node) : Prop :=
  ∃ values, n = .row heading values ∧
    List.Forall₂ (fun c v => (c.name, v) ∈ fields) heading values

variable {first : Heading} {fields : List (String × Node)}

-- =========================================================== one row

/-- The first row stands as it was written. -/
theorem isRowOf_self : IsRowOf (rowColumns fields) fields
    (.row (rowColumns fields) (fields.map Prod.snd)) := by
  refine ⟨_, rfl, ?_⟩
  rw [rowColumns, List.forall₂_map_left_iff, List.forall₂_map_right_iff, List.forall₂_same]
  exact fun _ hfield => hfield

/-- Looking up names that are all there gives one value for each. -/
theorem forall₂_filterMap_lookup {h : Heading}
    (hnames : ∀ name ∈ h.names, name ∈ fields.map Prod.fst) :
    List.Forall₂ (fun c v => (c.name, v) ∈ fields) h
      (h.names.filterMap fun name => fields.lookup name) := by
  induction h with
  | nil => exact .nil
  | cons c h ih =>
      obtain ⟨hname, hrest⟩ := List.forall_mem_cons.mp hnames
      rw [Heading.names, List.map_cons, List.filterMap_cons]
      cases hlookup : fields.lookup c.name with
      | none => exact absurd hname (lookup_eq_none.mp hlookup)
      | some v =>
          obtain ⟨before, after, hsplit, -⟩ := List.lookup_eq_some_iff.mp hlookup
          have hmem : (c.name, v) ∈ fields := hsplit ▸ List.mem_append_right _ List.mem_cons_self
          exact .cons hmem (ih hrest)

/-- A row with the columns of the first one in another order keeps its
values, each under its name. -/
theorem isRowOf_reorder (hfirst : first.names.Nodup) (hfields : (fields.map Prod.fst).Nodup)
    (hsame : DataType.sameHeading first (rowColumns fields) = true) :
    IsRowOf first fields (.row first (reorder first fields)) := by
  refine ⟨_, rfl, ?_⟩
  rw [reorder, takeNamed_eq hfirst hfields]
  refine forall₂_filterMap_lookup ?_
  rw [← names_rowColumns]
  exact names_subset_of_within (Bool.and_eq_true_iff.mp hsame).2

/-- Named values fit a heading if no name stands twice and they have its
columns in some order. -/
theorem fits_iff (hfirst : first.names.Nodup) :
    (∃ heading, rowHeading [] fields = .ok heading ∧ DataType.sameHeading first heading = true) ↔
      (fields.map Prod.fst).Nodup ∧ SameColumns first (rowColumns fields) := by
  have hcolumns (hfields : (fields.map Prod.fst).Nodup) :
      DataType.sameHeading first (rowColumns fields) = true ↔
        SameColumns first (rowColumns fields) :=
    Heading.sameHeading_iff_perm hfirst (by rwa [names_rowColumns])
  constructor
  · rintro ⟨heading, hheading, hsame⟩
    obtain ⟨hfields, rfl⟩ := rowHeading_eq_ok.mp hheading
    exact ⟨hfields, (hcolumns hfields).mp hsame⟩
  · rintro ⟨hfields, hsame⟩
    exact ⟨_, rowHeading_eq_ok.mpr ⟨hfields, rfl⟩, (hcolumns hfields).mpr hsame⟩

-- ============================================================ tables

/-- All rows of a table stand under the heading of the first one. -/
theorem rowsLike_isRowOf (hfirst : first.names.Nodup) {rows : List (List (String × Node))}
    {nodes : List Node} (h : rowsLike first rows = .ok nodes) :
    List.Forall₂ (IsRowOf first) rows nodes := by
  refine (rowsLike_eq_ok.mp h).imp ?_
  rintro fields _ ⟨heading, hheading, hsame, rfl⟩
  obtain ⟨hfields, rfl⟩ := rowHeading_eq_ok.mp hheading
  exact isRowOf_reorder hfirst hfields hsame

/-- A table can be made exactly if each row has the columns of the first
one, none of them twice. -/
theorem exists_rowsLike_iff (hfirst : first.names.Nodup) {rows : List (List (String × Node))} :
    (∃ nodes, rowsLike first rows = .ok nodes) ↔
      ∀ fields ∈ rows, (fields.map Prod.fst).Nodup ∧ SameColumns first (rowColumns fields) := by
  constructor
  · rintro ⟨nodes, h⟩
    induction rowsLike_eq_ok.mp h with
    | nil => exact List.forall_mem_nil _
    | cons hrow hrest ih =>
        obtain ⟨heading, hheading, hsame, -⟩ := hrow
        exact List.forall_mem_cons.mpr
          ⟨(fits_iff hfirst).mp ⟨heading, hheading, hsame⟩, ih (rowsLike_eq_ok.mpr hrest)⟩
  · intro hrows
    refine ⟨rows.map fun fields => .row first (reorder first fields), rowsLike_eq_ok.mpr ?_⟩
    rw [List.forall₂_map_right_iff, List.forall₂_same]
    intro fields hfields
    obtain ⟨heading, hheading, hsame⟩ := (fits_iff hfirst).mpr (hrows fields hfields)
    exact ⟨heading, hheading, hsame, rfl⟩

/-- Rows make a table exactly if no row names a column twice and every
later row has the columns of the first one, in some order. The table
then has one row for each that was given, with the columns of the first
one and each value under the name that the row gave it to. -/
theorem table_keeps_values (rows : List (List (String × Node))) (w : Workspace) :
    ((∃ n w', table rows w = .ok n w') ↔
      (∀ fields ∈ rows, (fields.map Prod.fst).Nodup) ∧
        ∀ fields ∈ rows.tail, SameColumns (firstColumns rows) (rowColumns fields)) ∧
    ∀ n w', table rows w = .ok n w' → w' = w ∧ ∃ nodes, n = .table (firstColumns rows) nodes ∧
      List.Forall₂ (IsRowOf (firstColumns rows)) rows nodes := by
  cases rows with
  | nil =>
      refine ⟨⟨fun _ => by simp, fun _ => ⟨_, w, rfl⟩⟩, fun n w' h => ?_⟩
      obtain ⟨rfl, rfl⟩ := pure_eq_ok.mp h
      exact ⟨rfl, [], rfl, .nil⟩
  | cons fields rest =>
      -- the table has the columns of its first row, and the other rows are put in
      -- their order
      have hok (n : Node) (w' : Workspace) : table (fields :: rest) w = .ok n w' ↔
          (fields.map Prod.fst).Nodup ∧ w' = w ∧ ∃ nodes,
            rowsLike (rowColumns fields) rest = .ok nodes ∧ n = .table (rowColumns fields)
              (.row (rowColumns fields) (fields.map Prod.snd) :: nodes) := by
        simp only [table, bind_eq_ok, ofExcept_eq_ok, pure_eq_ok, rowHeading_eq_ok]
        constructor
        · rintro ⟨_, _, ⟨⟨hfields, rfl⟩, rfl⟩, nodes, _, ⟨hnodes, rfl⟩, rfl, rfl⟩
          exact ⟨hfields, rfl, nodes, hnodes, rfl⟩
        · rintro ⟨hfields, rfl, nodes, hnodes, rfl⟩
          exact ⟨_, _, ⟨⟨hfields, rfl⟩, rfl⟩, nodes, _, ⟨hnodes, rfl⟩, rfl, rfl⟩
      -- a row without a repeated name has distinct columns
      have hfirst (hfields : (fields.map Prod.fst).Nodup) : (rowColumns fields).names.Nodup := by
        rwa [names_rowColumns]
      rw [List.forall_mem_cons]
      refine ⟨⟨?_, ?_⟩, fun n w' h => ?_⟩
      · rintro ⟨n, w', h⟩
        obtain ⟨hfields, -, nodes, hnodes, -⟩ := (hok n w').mp h
        have hrest := (exists_rowsLike_iff (hfirst hfields)).mp ⟨nodes, hnodes⟩
        exact ⟨⟨hfields, fun row hrow => (hrest row hrow).1⟩, fun row hrow => (hrest row hrow).2⟩
      · rintro ⟨⟨hfields, hrest⟩, hsame⟩
        obtain ⟨nodes, hnodes⟩ := (exists_rowsLike_iff (hfirst hfields)).mpr fun row hrow =>
          ⟨hrest row hrow, hsame row hrow⟩
        exact ⟨_, w, (hok _ w).mpr ⟨hfields, rfl, nodes, hnodes, rfl⟩⟩
      -- the first row stands as it was given
      · obtain ⟨hfields, rfl, nodes, hnodes, rfl⟩ := (hok n w').mp h
        exact ⟨rfl, _, rfl, .cons isRowOf_self (rowsLike_isRowOf (hfirst hfields) hnodes)⟩

/-- The columns of the second row stand in another order, such that each
value that is taken moves one of those left. -/
theorem table_keeps_values_rotated :
    let w : Workspace := default
    let yes := Node.literal (.bool true)
    let no := Node.literal (.bool false)
    let text := Node.literal (.text "t")
    let void := Node.literal .void
    let rows := [[("a", yes), ("b", text), ("c", void)], [("c", void), ("a", no), ("b", text)]]
    let columns := firstColumns rows
    table rows w = .ok (.table columns
        [.row columns [yes, text, void], .row columns [no, text, void]]) w ∧
      IsRowOf columns [("c", void), ("a", no), ("b", text)] (.row columns [no, text, void]) := by
  intro w yes no text void rows columns
  have hok : table rows w = .ok (.table columns
      [.row columns [yes, text, void], .row columns [no, text, void]]) w := rfl
  obtain ⟨-, _, hnodes, hrows⟩ := (table_keeps_values rows w).2 _ _ hok
  obtain ⟨-, rfl⟩ := Node.table.inj hnodes
  obtain ⟨-, hrows⟩ := List.forall₂_cons.mp hrows
  exact ⟨hok, (List.forall₂_cons.mp hrows).1⟩

end RelQuery.Build
