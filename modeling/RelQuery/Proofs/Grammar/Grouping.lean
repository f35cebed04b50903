/-
Grouping an infix chain changes where its operators stand, not the
order of its operands, and adds no operator.
-/
import RelQuery.Grammar.Grouping

namespace RelQuery

namespace Grouping

variable {ω α : Type}

/-- The operands of a grouping from left to right. -/
def operands : Grouping ω α → List α
  | .operand a => [a]
  | .joined left _ right => left.operands ++ right.operands

/-- A step adds its operand at the right. -/
theorem operands_attach (precedence : ω → Nat) (op : ω) (a : α) (g : Grouping ω α) :
    (g.attach precedence op a).operands = g.operands ++ [a] := by
  induction g with
  | operand b => rfl
  | joined left top right _ ih =>
      unfold attach
      split
      · rw [operands, ih, operands, List.append_assoc]
      · rfl

/-- The operands of a grouped chain are those of the chain. -/
theorem operands_ofChain (precedence : ω → Nat) (first : α) (rest : List (ω × α)) :
    (ofChain precedence first rest).operands = first :: rest.map Prod.snd := by
  -- the fold begins with any grouping of the operands so far
  have hfold (g : Grouping ω α) :
      (rest.foldl (fun tree step => tree.attach precedence step.1 step.2) g).operands
        = g.operands ++ rest.map Prod.snd := by
    induction rest generalizing g with
    | nil => exact (List.append_nil _).symm
    | cons step rest ih =>
        rw [List.foldl_cons, ih, operands_attach, List.map_cons, List.append_assoc]
        rfl
  exact hfold (.operand first)

/-- The operators of a grouping. -/
def operators : Grouping ω α → List ω
  | .operand _ => []
  | .joined left op right => op :: (left.operators ++ right.operators)

/-- The operators of a grouping with one step more are the new one and the
old ones. -/
theorem mem_operators_attach {precedence : ω → Nat} {op x : ω} {a : α} {g : Grouping ω α}
    (h : x ∈ (g.attach precedence op a).operators) : x = op ∨ x ∈ g.operators := by
  induction g with
  | operand b => simpa [attach, operators] using h
  | joined left top right _ ih =>
      unfold attach at h
      split at h
      · simp only [operators, List.mem_cons, List.mem_append] at h ⊢
        rcases h with htop | hleft | hright
        · exact .inr (.inl htop)
        · exact .inr (.inr (.inl hleft))
        · exact (ih hright).imp_right fun hx => .inr (.inr hx)
      · simpa [operators] using h

/-- The operators of a grouping made from steps are those of the steps. -/
theorem mem_operators_foldl {precedence : ω → Nat} {rest : List (ω × α)} {g : Grouping ω α} {x : ω}
    (h : x ∈ (rest.foldl (fun tree step => tree.attach precedence step.1 step.2) g).operators) :
    x ∈ g.operators ∨ x ∈ rest.map Prod.fst := by
  induction rest generalizing g with
  | nil => exact .inl h
  | cons step rest ih =>
      rw [List.map_cons, List.mem_cons]
      rcases ih h with hattached | hrest
      · exact (mem_operators_attach hattached).symm.imp_right .inl
      · exact .inr (.inr hrest)

/-- The operators of a grouped chain are among those of the chain. -/
theorem mem_operators_ofChain {precedence : ω → Nat} {first : α} {rest : List (ω × α)} {x : ω}
    (h : x ∈ (ofChain precedence first rest).operators) : x ∈ rest.map Prod.fst :=
  (mem_operators_foldl h).resolve_left List.not_mem_nil

end Grouping

end RelQuery
