/-
The slots of a whole expression.

Every construct is a few steps in a row, so that slots are handed out
in order is a discipline (`slotDiscipline`), and the facts about single
steps are its parts. Only a field list can leave something open, and
only for the list that continues it.
-/
import RelQuery.Proofs.Build.Field

namespace RelQuery

open Workspace

namespace Build

/-- An expression takes the slots of its tree, and a list that is kept
open its level. -/
def slotDiscipline (catalog : Catalog) : Discipline catalog where
  Makes := Turns
  Builds keepOpen e := Builds (keepOpen && e.isFields) (expression catalog keepOpen e)
  Binds bindings := ∀ w u w', blockBindings catalog bindings w = .ok u w' → Binds w w'
  Lists := RelatesFields catalog Listed
  pure := .wrap
  throw := .throw
  bind h hf := h.bind hf
  frame others h := h.frame_left others
  located _ h := .located h
  uncallable _ name := .uncallable name
  builtin := builtin_turns
  function := function_turns
  fold := fold_turns
  name := useName_turns catalog
  currentRow := currentRow_turns
  restrict base _ h := restrict_turns base h
  binds_nil w _ _ h := by
    cases h
    exact .refl w
  binds_cons hvalue hrest w u w' h := by
    obtain ⟨u₁, w₁, hfirst, h⟩ := blockBindings_steps h
    exact (bindLocal_binds hvalue hfirst).trans (hrest w₁ u w' h)
  block hbindings hbody := block_turns hbindings hbody
  lists_nil := .nil .nil
  lists_plain h := h.plain
  lists_computed hvalue hrest := hrest.computed fun hfield hothers =>
    (field_lists hvalue _ _ _ _ _ hfield).cons hothers
  closed hfields h := by
    rw [hfields]
    exact .closed h
  makes h := h.turns
  fields hbase hentries := by
    -- a base that is itself a list leaves its level for this one
    rename_i keepOpen mark base allBut order entries
    show Builds (keepOpen && true) _
    rw [Bool.and_true]
    exact .located (fields_builds allBut keepOpen order hbase hentries)

section

variable (catalog : Catalog)

/-- An expression owns the slots that are handed out while it is built. -/
theorem expression_builds (keepOpen : Bool) (e : Expr) :
    Builds (keepOpen && e.isFields) (expression catalog keepOpen e) :=
  (slotDiscipline catalog).walk keepOpen e

theorem expressions_turns (es : List Expr) : Turns [] (expressions catalog es) id :=
  (slotDiscipline catalog).walkAll es

theorem operands_turns (steps : List Step) :
    Turns [] (operands catalog steps) fun ops => ops.map Prod.snd :=
  (slotDiscipline catalog).walkSteps steps

theorem fieldEntries_lists (entries : List FieldEntry) :
    Lists (fieldEntries catalog entries) FieldSpec.computed :=
  (slotDiscipline catalog).walkEntries entries

theorem bindingValues_turns (bindings : List Binding) :
    Turns [] (bindingValues catalog bindings) fun fields => fields.map Prod.snd :=
  (slotDiscipline catalog).walkValues bindings

theorem tableRows_turns (rows : List (List Binding)) :
    Turns [] (tableRows catalog rows) fun rows => rows.flatMap (·.map Prod.snd) :=
  (slotDiscipline catalog).walkRows rows

/-- The bindings of a block, each on the level that the block has opened. -/
theorem blockBindings_binds (bindings : List Binding) (w : Workspace) (u : Unit) (w' : Workspace)
    (h : blockBindings catalog bindings w = .ok u w') : Binds w w' :=
  (slotDiscipline catalog).walkBindings bindings w u w' h

theorem binary_turns (op : String) (lhs rhs : Node) :
    Turns [lhs, rhs] (binary catalog op lhs rhs) fun n => [n] :=
  (slotDiscipline catalog).binary op lhs rhs

/-- Operands that are joined as they are grouped make one tree. -/
theorem combine_turns (g : Grouping (String × Nat) Node) :
    Turns g.operands (g.combine fun lhs op rhs => located op.2 (binary catalog op.1 lhs rhs))
      fun n => [n] :=
  (slotDiscipline catalog).joins g

end

end Build

end RelQuery
