/-
Headings whose names are distinct at every depth.

A heading is a set of named columns. Every operation that makes one
refuses or skips a name that is taken, so the names of a heading are
distinct, and so are those of the headings inside the types of its
columns, supertypes included.
-/
import RelQuery.Type.Heading

namespace RelQuery

namespace DataType

mutual

/-- No heading inside the type names a column twice. -/
def namesDistinct : DataType → Bool
  | .tuple h => decide (Heading.names h).Nodup && columnsDistinct h
  | .relation h => decide (Heading.names h).Nodup && columnsDistinct h
  | .user ⟨_, h, s⟩ => decide (Heading.names h).Nodup && columnsDistinct h && superDistinct s
  | _ => true

/-- No heading inside the supertype names a column twice. -/
def superDistinct : Option DataType → Bool
  | none => true
  | some t => t.namesDistinct

/-- No heading inside the types of the columns names a column twice. -/
def columnsDistinct : List Column → Bool
  | [] => true
  | ⟨_, t⟩ :: rest => t.namesDistinct && columnsDistinct rest

end

end DataType

namespace Heading

/-- Neither the heading nor one inside it names a column twice. -/
def namesDistinct (h : Heading) : Bool :=
  decide h.names.Nodup && DataType.columnsDistinct h

theorem has_eq_true {h : Heading} {name : String} : h.has name = true ↔ name ∈ h.names := by
  simp [has, names]

/-- A column whose name is not taken goes to the end. -/
theorem push_eq_ok {h k : Heading} {c : Column} :
    h.push c = .ok k ↔ c.name ∉ h.names ∧ k = h ++ [c] := by
  unfold push
  rw [← has_eq_true]
  split
  · simp [*]
  · simp [*, eq_comm]

theorem names_append (h k : Heading) : names (h ++ k) = h.names ++ names k :=
  List.map_append

/-- A column that could be pushed had a new name. -/
theorem nodup_names_push {h k : Heading} {c : Column} (hk : h.push c = .ok k)
    (hh : h.names.Nodup) : k.names.Nodup := by
  obtain ⟨hfree, rfl⟩ := push_eq_ok.mp hk
  rw [names_append, List.nodup_append]
  refine ⟨hh, by simp [names], ?_⟩
  intro a ha b hb hab
  rw [names, List.map_singleton, List.mem_singleton] at hb
  rw [hab, hb] at ha
  exact hfree ha

theorem columnsDistinct_append (h k : List Column) :
    DataType.columnsDistinct (h ++ k)
      = (DataType.columnsDistinct h && DataType.columnsDistinct k) := by
  induction h with
  | nil => rfl
  | cons c h ih =>
      obtain ⟨name, t⟩ := c
      rw [List.cons_append, DataType.columnsDistinct, DataType.columnsDistinct, ih,
        Bool.and_assoc]

/-- Inserting a column keeps the names distinct. -/
theorem namesDistinct_insertNew {h : Heading} {c : Column} (hh : h.namesDistinct = true)
    (hc : c.type.namesDistinct = true) : (h.insertNew c).namesDistinct = true := by
  obtain ⟨name, t⟩ := c
  unfold insertNew
  split
  · exact hh
  · rename_i hfree
    rw [has_eq_true] at hfree
    rw [namesDistinct, Bool.and_eq_true, decide_eq_true_eq] at hh ⊢
    constructor
    · exact nodup_names_push (push_eq_ok.mpr ⟨hfree, rfl⟩) hh.1
    · rw [columnsDistinct_append, hh.2, DataType.columnsDistinct, hc]
      rfl

/-- Columns gathered one after another, each name once. -/
theorem namesDistinct_foldl_insertNew {cs : List Column}
    (hc : DataType.columnsDistinct cs = true) {h : Heading} (hh : h.namesDistinct = true) :
    namesDistinct (cs.foldl insertNew h) = true := by
  induction cs generalizing h with
  | nil => exact hh
  | cons c cs ih =>
      obtain ⟨name, t⟩ := c
      rw [DataType.columnsDistinct, Bool.and_eq_true] at hc
      exact ih hc.2 (namesDistinct_insertNew hh hc.1)

end Heading

end RelQuery
