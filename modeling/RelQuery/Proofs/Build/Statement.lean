/-
Whole statements.

A statement builds one expression. A definition builds it in a level
for its parameters, whose counter numbers the slots of the body as the
counter of a field list numbers those of its fields.
-/
import RelQuery.Proofs.Build.Walk

namespace RelQuery

open Workspace

/-- Every field list in a statement is partitioned, and so is the body
of a definition. -/
structure Statement.IsTidy (s : Statement) : Prop where
  root : ∀ root ∈ s.root?, root.IsTidy
  body : ∀ name link body, s = .define name link body →
    FoldSite.Partition body.body.sites body.accums ∧ body.accums = body.body.slots.length

namespace Statement

/-- A statement of an expression has no list of its own. -/
theorem isTidy_expression {value : Node} (h : value.IsTidy) : IsTidy (.expression value) where
  root := by
    rintro root ⟨⟩
    exact h
  body := fun _ _ _ hs => nomatch hs

/-- An assignment has no list of its own. -/
theorem isTidy_assign {name : String} {value : Node} (h : value.IsTidy) :
    IsTidy (.assign name value) where
  root := by
    rintro root ⟨⟩
    exact h
  body := fun _ _ _ hs => nomatch hs

theorem isTidy_typeDef {user : UserType} : IsTidy (.typeDef user) where
  root := fun _ hroot => nomatch hroot
  body := fun _ _ _ hs => nomatch hs

end Statement

namespace Build

variable {catalog : Catalog} {w w' : Workspace} {s : Statement}

/-- The check of the target comes before the statement is made, and changes
nothing. -/
theorem assign_looks (catalog : Catalog) (name : String) (value : Node) :
    Looks (assign catalog name value) (· = .assign name value) := by
  unfold assign
  split
  · exact .fail _
  · split
    · exact .pure rfl
    · split
      · split
        · exact .pure rfl
        · exact .fail _
      · exact .fail _

/-- A type is put together from what is looked up. -/
theorem typeDef_looks (catalog : Catalog) (name : String) (supertype : Option String)
    (components : Heading) :
    Looks (typeDef catalog name supertype components) fun s => ∃ user, s = .typeDef user := by
  unfold typeDef
  split
  · exact .fail _
  · refine Looks.ofExcept.bind fun inherited _ => ?_
    exact Looks.ofExcept.bind fun heading _ => .pure ⟨_, rfl⟩

/-- The parameters of a function are declared in a level of their own. -/
theorem enterDefine_eq_ok {name : String} {params : Heading} {u : Unit}
    (h : enterDefine name params w = .ok u w') :
    w' = w.entered (.seeded .parameters (w.context.scopes.level + 1) params .parameter)
        .enabled := by
  unfold enterDefine at h
  split at h
  · exact absurd h fail_ne_ok
  · cases h
    rfl

/-- A definition closes the level of its parameters. The body becomes a
segment that is made of what the level has recorded, and the flag at the
end of the level goes to the function too. -/
theorem define_eq_ok {name : String} {params : Heading} {returns : Option DataType} {body : Node}
    (h : define name params returns body w = .ok s w') :
    ∃ captured link, leave w = .ok captured w' ∧ link.args = params ∧
      link.windowed = (captured.counter.getD {}).hasWindow ∧
      s = .define name link (.make name body captured.scope.lookup
        (captured.counter.getD {}).total (captured.counter.getD {}).hasWindow) := by
  obtain ⟨captured, w₁, hleave, h⟩ := bind_eq_ok.mp h
  dsimp only at h
  generalize returns.filter _ = mismatch at h
  cases mismatch with
  | some declared => exact absurd h fail_ne_ok
  | none =>
      cases h
      exact ⟨captured, _, hleave, rfl, rfl, rfl⟩

/-- The steps of a definition: its body is built in the level of the
parameters, and the level is closed. -/
theorem definition_steps {step : Build Node} {name : String} {params : Heading}
    {returns : Option DataType} {mark : Nat}
    (h : (located mark (enterDefine name params) >>= fun _ => step >>= fun n =>
      located mark (define name params returns n)) w = .ok s w') :
    ∃ body w₁ captured link,
      step (w.entered (.seeded .parameters (w.context.scopes.level + 1) params .parameter)
        .enabled) = .ok body w₁ ∧ leave w₁ = .ok captured w' ∧ link.args = params ∧
      link.windowed = (captured.counter.getD {}).hasWindow ∧
      s = .define name link (.make name body captured.scope.lookup
        (captured.counter.getD {}).total (captured.counter.getD {}).hasWindow) := by
  obtain ⟨u, w₀, henter, h⟩ := bind_eq_ok.mp h
  obtain ⟨body, w₁, hbody, hdefine⟩ := bind_eq_ok.mp h
  obtain rfl := enterDefine_eq_ok (located_eq_ok.mp henter)
  obtain ⟨captured, link, hleave, hargs, hwindowed, rfl⟩ :=
    define_eq_ok (located_eq_ok.mp hdefine)
  exact ⟨body, w₁, captured, link, hbody, hleave, hargs, hwindowed, rfl⟩

/-- What has been done when a statement is built. -/
theorem statement_cases {sentence : Sentence} (h : statement catalog sentence w = .ok s w') :
    (∃ e node, expression catalog false e w = .ok node w' ∧ s = .expression node) ∨
    (∃ e node name w₁, expression catalog false e w = .ok node w₁ ∧
      assign catalog name node w₁ = .ok s w') ∨
    (∃ e mark name params returns, (located mark (enterDefine name params) >>= fun _ =>
      expression catalog false e >>= fun n => located mark (define name params returns n)) w
        = .ok s w') ∨
    (∃ user, s = .typeDef user ∧ w' = w) := by
  cases sentence with
  | expression value =>
      obtain ⟨node, w₁, hnode, hs⟩ := bind_eq_ok.mp h
      cases hs
      exact .inl ⟨value, node, hnode, rfl⟩
  | assign mark name value =>
      obtain ⟨node, w₁, hnode, hs⟩ := bind_eq_ok.mp h
      exact .inr (.inl ⟨value, node, name, w₁, hnode, located_eq_ok.mp hs⟩)
  | define mark name params returns body =>
      obtain ⟨columns, w₁, hcolumns, hs⟩ := bind_eq_ok.mp h
      obtain ⟨rfl, -⟩ := heading_looks catalog params w columns w₁ hcolumns
      refine .inr (.inr (.inl ?_))
      -- whatever type is declared, the body is built the same way
      cases returns with
      | none => exact ⟨body, mark, name, columns, none, hs⟩
      | some t =>
          cases htype : typeOf catalog t with
          | ok type =>
              simp only [htype] at hs
              exact ⟨body, mark, name, columns, some type, hs⟩
          | error f =>
              simp only [htype] at hs
              exact nomatch hs
  | typeDef mark name supertype components =>
      obtain ⟨columns, w₁, hcolumns, hs⟩ := bind_eq_ok.mp h
      obtain ⟨rfl, -⟩ := heading_looks catalog components w columns w₁ hcolumns
      cases htypeDef : typeDef catalog name (supertype.map (·.1)) columns w₁ with
      | error f w₂ =>
          rw [htypeDef] at hs
          cases hs
      | ok found w₂ =>
          rw [htypeDef] at hs
          cases hs
          obtain ⟨rfl, user, rfl⟩ := typeDef_looks catalog name _ columns w₁ s w' htypeDef
          exact .inr (.inr (.inr ⟨user, rfl, rfl⟩))

/-- A definition owns the slots of its body. -/
theorem define_tidy {step : Build Node} (hstep : Builds false step) {name : String}
    {params : Heading} {returns : Option DataType} {mark : Nat}
    (h : (located mark (enterDefine name params) >>= fun _ => step >>= fun n =>
      located mark (define name params returns n)) w = .ok s w') :
    w.Grows w' [] ∧ (w.IsTidy → s.IsTidy) := by
  obtain ⟨body, w₂, captured, link, hbody, hleave, -, -, rfl⟩ := definition_steps h
  obtain ⟨slots, w₃, hgrows, hslots, htidy, rfl⟩ := hstep _ body w₂ hbody
  obtain ⟨hclosed, hcounter⟩ := leave_own rfl hgrows.toWidens hleave
  have htotal : w₂.counter.total = slots.length := hgrows.total.trans (Nat.zero_add _)
  have hnumbered : slots.Perm (List.range slots.length) := by
    rw [List.range_eq_range']
    exact hgrows.numbered
  refine ⟨hclosed, fun hw => ⟨?_, ?_⟩⟩
  · rintro root ⟨⟩
    exact htidy hw
  · rintro _ _ _ ⟨⟩
    rw [hcounter]
    show FoldSite.Partition body.sites w₂.counter.total ∧ w₂.counter.total = body.slots.length
    rw [htotal]
    exact ⟨.of_perm (hslots.symm.trans hnumbered), hslots.length_eq⟩

/-- A statement leaves the workspace as it was, slots aside, and is
tidy. -/
theorem statement_eq_ok {sentence : Sentence} (h : statement catalog sentence w = .ok s w') :
    (∃ slots, w.Grows w' slots) ∧ (w.IsTidy → s.IsTidy) := by
  rcases statement_cases h with ⟨e, node, hnode, rfl⟩ | ⟨e, node, name, w₁, hnode, hs⟩ |
    ⟨e, mark, name, params, returns, hs⟩ | ⟨user, rfl, rfl⟩
  · obtain ⟨slots, w₂, hgrows, -, htidy, rfl⟩ := expression_builds catalog false e w node w' hnode
    exact ⟨⟨slots, hgrows⟩, fun hw => Statement.isTidy_expression (htidy hw)⟩
  · obtain ⟨slots, w₂, hgrows, -, htidy, rfl⟩ := expression_builds catalog false e w node w₁ hnode
    obtain ⟨rfl, rfl⟩ := assign_looks catalog name node _ s w' hs
    exact ⟨⟨slots, hgrows⟩, fun hw => Statement.isTidy_assign (htidy hw)⟩
  · obtain ⟨hgrows, htidy⟩ := define_tidy (expression_builds catalog false e) hs
    exact ⟨⟨[], hgrows⟩, htidy⟩
  · exact ⟨⟨[], .refl _⟩, fun _ => Statement.isTidy_typeDef⟩

/-- Accumulator slots are partitioned: the fold sites in the fields of
every list of a statement own its slots, each slot once and none left
over, and so do those in the body of a definition for the body. Each
segment says how many slots its own sites have. -/
theorem statement_partitions_slots {c : Context} {sentence : Sentence}
    (h : statement catalog sentence { context := c } = .ok s w') :
    (∀ root ∈ s.root?, ∀ base kind keys fields accums type,
      Node.transform base kind keys fields accums type ∈ root.nodes →
        FoldSite.Partition (fields.flatMap (·.body.sites)) accums ∧
          ∀ field ∈ fields, field.accums = field.body.slots.length) ∧
    (∀ name link body, s = .define name link body →
      FoldSite.Partition body.body.sites body.accums ∧
        body.accums = body.body.slots.length) := by
  have hnone : Workspace.IsTidy { context := c } := fun _ hl => absurd hl List.not_mem_nil
  obtain ⟨hroot, hbody⟩ := (statement_eq_ok h).2 hnone
  exact ⟨fun root hmem _ _ _ _ _ _ hnode => hroot root hmem _ hnode, hbody⟩

/-- A bound sum used twice in a field that replaces a column, and an
average beside it. -/
def doubledSum : Sentence :=
  .expression (.fields 22 (.emptyTable 0 [("a", .named "number" 6)]) ⟨true, [],
    [.computed "a" 28 (.block 33 [⟨"x", .call 43 "sum" [.name 47 "a"]⟩]
      (.chain 51 (.name 51 "x") [⟨"+", 53, .name 55 "x"⟩])),
      .computed "m" 60 (.call 65 "avg" [.name 69 "a"])]⟩)

/-- The slots of the list that a statement is. -/
def listSlots? : Statement → Option Nat
  | .expression (.transform _ _ _ _ accums _) => some accums
  | _ => none

/-- Each use of the sum has its slot, and the average has two. -/
theorem statement_partitions_slots_doubled_sum :
    ∃ base kind keys fields type w',
      statement {} doubledSum { context := .fresh }
        = .ok (.expression (.transform base kind keys fields 4 type)) w' ∧
      FoldSite.Partition (fields.flatMap (·.body.sites)) 4 := by
  have hrun : endsWith (fun s _ => listSlots? s == some 4)
      (statement {} doubledSum { context := .fresh }) = true := by decide +kernel
  obtain ⟨s, w', hr, hcheck⟩ := endsWith_eq_true hrun
  have hslots := beq_iff_eq.mp hcheck
  unfold listSlots? at hslots
  split at hslots
  · rename_i base kind keys fields accums type
    obtain rfl := Option.some.inj hslots
    have hpartition := (statement_partitions_slots hr).1 _ rfl
    exact ⟨base, kind, keys, fields, type, w', hr,
      (hpartition base kind keys fields 4 type List.mem_cons_self).1⟩
  · cases hslots

end Build

end RelQuery
