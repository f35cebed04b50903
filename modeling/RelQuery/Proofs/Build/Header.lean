/-
The headers of a whole statement.

That reads are noted is a discipline like that of slots
(`noteDiscipline`), and the facts about single steps are its parts. The
invariant that carries it is that bound values read only what scopes
around them offer; a context in which nothing is bound has it. At the
end of a statement the header of every segment is complete.
-/
import RelQuery.Proofs.Build.Lookup
import RelQuery.Proofs.Build.Statement

namespace RelQuery

open Workspace

/-- The segments of a statement: those in its tree and the body of a
definition. -/
def Statement.segments (s : Statement) : List Segment :=
  let inner := (s.root?.toList.flatMap Node.nodes).flatMap Node.segments
  match s with
  | .define _ _ body => body :: inner
  | _ => inner

namespace Build

-- ========================================================= the walk

/-- An expression notes what its tree reads. A list that is kept open
leaves a scope for its columns. -/
def noteDiscipline (catalog : Catalog) : Discipline catalog where
  Makes := Notes
  Builds keepOpen e := Gathers (keepOpen && e.isFields) (expression catalog keepOpen e)
  Binds bindings := ∀ w u w', blockBindings catalog bindings w = .ok u w' → w.IsSound → Gains w w'
  Lists := RelatesFields catalog Computed
  pure := .wrap
  throw := .throw
  bind h hf := h.bind hf
  frame others h := h.frame_left others
  located _ h := .located h
  uncallable _ name := .uncallable name
  builtin := builtin_notes
  function := function_notes
  fold := fold_notes
  name := useName_notes catalog
  currentRow := currentRow_notes
  restrict base _ h := restrict_notes base h
  binds_nil w _ _ h hw := by
    cases h
    exact .refl hw
  binds_cons hvalue hrest w u w' h hw := by
    obtain ⟨u₁, w₁, hbinding, h⟩ := blockBindings_steps h
    have hfirst := bindLocal_gains hvalue hw hbinding
    exact hfirst.trans (hrest w₁ u w' h hfirst.sound)
  block hbindings hbody := block_notes hbindings hbody
  lists_nil := .nil .nil
  lists_plain h := h.plain
  lists_computed hvalue hrest := hrest.computed fun hfield hothers =>
    (field_computes hvalue _ _ _ _ _ hfield).append hothers
  closed hfields h := by
    rw [hfields]
    exact .closed h
  makes h := h.notes
  fields hbase hentries := by
    -- whether the list is kept open is decided by what stands after it
    rename_i keepOpen mark base allBut order entries
    show Gathers (keepOpen && true) _
    rw [Bool.and_true]
    exact .located (fields_gathers allBut keepOpen order hbase hentries)

/-- What an expression reads is known once it is built. -/
theorem expression_gathers (catalog : Catalog) (keepOpen : Bool) (e : Expr) :
    Gathers (keepOpen && e.isFields) (expression catalog keepOpen e) :=
  (noteDiscipline catalog).walk keepOpen e

-- ================================================= whole statements

variable {catalog : Catalog} {w w' : Workspace} {s : Statement}

/-- The segments of a statement that builds one tree. -/
theorem complete_of_root {root : Node} {known : String → Prop} (h : root.IsCovered known) :
    ∀ segment ∈ ([root].flatMap Node.nodes).flatMap Node.segments, segment.IsComplete := by
  rw [List.flatMap_singleton]
  intro segment hsegment
  obtain ⟨n, hn, hsegment⟩ := List.mem_flatMap.mp hsegment
  exact h.segments n hn segment hsegment

/-- The body of a definition reads parameters, and its header lists
them. -/
theorem define_complete {step : Build Node} (hstep : Gathers false step) {name : String}
    {params : Heading} {returns : Option DataType} {mark : Nat} (hw : w.IsSound)
    (h : (located mark (enterDefine name params) >>= fun _ => step >>= fun n =>
      located mark (define name params returns n)) w = .ok s w') :
    ∀ segment ∈ s.segments, segment.IsComplete := by
  obtain ⟨body, w₂, captured, link, hbody, hleave, -, -, rfl⟩ := definition_steps h
  have hopens : w.Opens (w.entered _ .enabled)
      (.seeded .parameters (w.context.scopes.level + 1) params .parameter) := ⟨rfl, rfl, rfl, rfl⟩
  have hw₁ := hopens.isSound hw (Scopes.admits_seeded _ _ _ _)
  obtain ⟨hkeeps, hcovered⟩ := hstep.notes _ body w₂ hbody hw₁
  have hcovered := hcovered Node.allCovered_nil body List.mem_cons_self
  have hcloses := leave_closes hleave
  obtain ⟨-, hscope⟩ := hopens.keeps hkeeps hcloses
  have hheading : captured.scope.heading.isSome = true := by
    rw [hscope.heading]
    rfl
  exact List.forall_mem_cons.mpr
    ⟨hcloses.isComplete (hkeeps.isSound hw₁) hheading hcovered _ _ _, complete_of_root hcovered⟩

/-- All headers in the statement are complete. -/
theorem statement_complete {sentence : Sentence} (hw : w.IsSound)
    (h : statement catalog sentence w = .ok s w') :
    ∀ segment ∈ s.segments, segment.IsComplete := by
  rcases statement_cases h with ⟨e, node, hnode, rfl⟩ | ⟨e, node, name, w₁, hnode, hs⟩ |
    ⟨e, mark, name, params, returns, hs⟩ | ⟨user, rfl, rfl⟩
  · obtain ⟨w₂, -, hcovered, -⟩ := expression_gathers catalog false e w node w' hnode hw
    exact complete_of_root hcovered
  · obtain ⟨w₂, -, hcovered, -⟩ := expression_gathers catalog false e w node w₁ hnode hw
    obtain ⟨-, rfl⟩ := assign_looks catalog name node w₁ s w' hs
    exact complete_of_root hcovered
  · exact define_complete (expression_gathers catalog false e) hw hs
  · exact fun _ hsegment => absurd hsegment List.not_mem_nil

/-- Headers list every read from outside: what the code of a segment
loads from a row, at any depth, is named in the segment's header or is a
column that a segment inside it runs over. -/
theorem statement_lists_outside_reads {c : Context} (hc : c.scopes.IsSound) {sentence : Sentence}
    (h : statement catalog sentence { context := c } = .ok s w') :
    ∀ segment ∈ s.segments, ∀ r ∈ segment.body.rowReads,
      r.name ∈ Heading.names segment.lookup ∨ r.name ∈ r.around := by
  have hw : Workspace.IsSound { context := c } := ⟨hc, fun _ hl => absurd hl List.not_mem_nil⟩
  exact statement_complete hw h

/-- A column bound in a block, and a predicate over other rows that uses
it. -/
def boundColumn : Sentence :=
  .expression (.fields 30 (.emptyTable 0 [("dept", .named "text" 6)]) ⟨false, [],
    [.computed "x" 32 (.block 37 [⟨"d", .name 47 "dept"⟩]
      (.restrict 65 (.emptyTable 53 [("a", .named "number" 57)])
        (.chain 71 (.name 71 "d") [⟨"=", 73, .text 75 "ops"⟩])))]⟩)

/-- The copy of the column is a read of the predicate from outside. -/
theorem statement_lists_outside_reads_bound_column :
    ∃ s w', statement {} boundColumn { context := .fresh } = .ok s w' ∧
      ∃ segment ∈ s.segments, segment.name = "where" ∧
        "dept" ∈ Heading.names segment.lookup := by
  have hrun : endsWith (fun s _ => s.segments.any fun segment => segment.name == "where" &&
      segment.body.rowReads.any fun r => r.name == "dept" && r.around.isEmpty)
      (statement {} boundColumn { context := .fresh }) = true := by decide +kernel
  obtain ⟨s, w', hr, hread⟩ := endsWith_eq_true hrun
  obtain ⟨segment, hsegment, hread⟩ := List.any_eq_true.mp hread
  obtain ⟨hname, hread⟩ := Bool.and_eq_true_iff.mp hread
  obtain ⟨r, hmem, hread⟩ := List.any_eq_true.mp hread
  obtain ⟨hcolumn, haround⟩ := Bool.and_eq_true_iff.mp hread
  refine ⟨s, w', hr, segment, hsegment, beq_iff_eq.mp hname, ?_⟩
  have hlisted := statement_lists_outside_reads .fresh hr segment hsegment r hmem
  rw [List.isEmpty_iff.mp haround, beq_iff_eq.mp hcolumn] at hlisted
  exact hlisted.resolve_right List.not_mem_nil

end Build

end RelQuery
