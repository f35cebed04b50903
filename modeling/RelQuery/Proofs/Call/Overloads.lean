/-
Chains of overloads that definitions have made.

A definition that joins a chain has been compared with its first link
only, in what it returns and in how many arguments it takes. That is
enough because the others agree with the first. It takes the place of
the first link that has its argument types; there is no second one to
be left behind, since the links before were told apart by them.

Telling links apart uses that equality of types is symmetric and
transitive, so it needs types that name no column twice.
-/
import RelQuery.Proofs.Type.Inheritance

namespace RelQuery

namespace Signature

variable {s t link : Signature}

/-- The argument types differ, whichever way they are compared. -/
def Apart (s t : Signature) : Prop :=
  s.sameArguments t = false ∧ t.sameArguments s = false

/-- Signatures that do not take the same arguments are apart. -/
theorem Apart.of_false (ht : t.ArgumentsDistinct) (h : s.sameArguments t = false) : s.Apart t := by
  refine ⟨h, Bool.eq_false_iff.mpr fun hsame => ?_⟩
  rw [sameArguments_symm ht hsame] at h
  cases h

/-- What has the argument types of a link is apart from what the link
is apart from. -/
theorem Apart.of_sameArguments (hs : s.ArgumentsDistinct) (hsame : s.sameArguments link = true)
    (h : s.Apart t) : link.Apart t := by
  refine ⟨Bool.eq_false_iff.mpr fun ht => ?_, Bool.eq_false_iff.mpr fun ht => ?_⟩
  · rw [Apart, sameArguments_trans hsame ht] at h
    cases h.1
  · rw [Apart, sameArguments_trans ht (sameArguments_symm hs hsame)] at h
    cases h.2

end Signature

namespace Overloads

variable {chain chain' : Overloads} {link s : Signature} {name : String} {type : DataType}

/-- The links of one function: they have its name and its type, take
as many arguments and are told apart by the types of these. -/
structure IsWellFormed (chain : Overloads) (name : String) (type : DataType) : Prop where
  nonempty : chain ≠ []
  name : ∀ link ∈ chain, link.name = name
  arity : ∀ link ∈ chain, ∀ other ∈ chain, link.arity = other.arity
  returns : ∀ link ∈ chain, ∀ other ∈ chain, link.returns.same other.returns = true
  type : ∀ link ∈ chain, type.same link.returns = true ∧ link.returns.same type = true
  apart : chain.Pairwise Signature.Apart

-- ========================================================== joining

/-- A link that joins a chain returns what the first one does and takes
as many arguments. -/
theorem add_eq_ok (h : chain.add link = .ok chain') :
    (∀ first ∈ chain.head?, first.returns.same link.returns = true ∧ first.arity = link.arity) ∧
      chain' = put link chain := by
  cases chain with
  | nil =>
      cases h
      exact ⟨nofun, rfl⟩
  | cons first rest =>
      simp only [add] at h
      split at h
      · cases h
      · rename_i hreturns
        split at h
        · cases h
        · rename_i harity
          cases h
          refine ⟨?_, rfl⟩
          rintro _ ⟨⟩
          exact ⟨by simpa using hreturns, by simpa using harity⟩

/-- A list with an element put in the place of another, or at the end, has
that element and ones it had. -/
theorem mem_of_put {α : Type} {x y : α} (put : List α → List α) {replaced : α → Bool}
    (hnil : put [] = [x])
    (hcons : ∀ z zs, put (z :: zs) = if replaced z then x :: zs else z :: put zs)
    {xs : List α} (h : y ∈ put xs) : y = x ∨ y ∈ xs := by
  induction xs with
  | nil =>
      rw [hnil] at h
      exact .inl (List.mem_singleton.mp h)
  | cons z zs ih =>
      rw [hcons] at h
      split at h
      · exact (List.mem_cons.mp h).imp_right (List.mem_cons_of_mem _)
      · rcases List.mem_cons.mp h with rfl | h
        · exact .inr List.mem_cons_self
        · exact (ih h).imp_right (List.mem_cons_of_mem _)

/-- A link of a chain that one was put in is that one or was there. -/
theorem mem_put (h : s ∈ put link chain) : s = link ∨ s ∈ chain :=
  mem_of_put (put link) rfl (fun _ _ => rfl) h

/-- The links of a chain that a definition has joined. -/
theorem mem_add (h : chain.add link = .ok chain') (hs : s ∈ chain') : s = link ∨ s ∈ chain := by
  obtain ⟨-, rfl⟩ := add_eq_ok h
  exact mem_put hs

/-- A chain that a link was put in is not empty. -/
theorem put_ne_nil (link : Signature) (chain : Overloads) : put link chain ≠ [] := by
  cases chain with
  | nil => exact List.cons_ne_nil _ _
  | cons first rest =>
      rw [put]
      split
      · exact List.cons_ne_nil _ _
      · exact List.cons_ne_nil _ _

/-- Links stay apart when one joins them. -/
theorem pairwise_put (hchain : ∀ s ∈ chain, s.ArgumentsDistinct) (hlink : link.ArgumentsDistinct)
    (h : chain.Pairwise Signature.Apart) : (put link chain).Pairwise Signature.Apart := by
  induction chain with
  | nil => exact List.pairwise_singleton _ _
  | cons s rest ih =>
      obtain ⟨hs, hrest⟩ := List.forall_mem_cons.mp hchain
      obtain ⟨hfirst, hothers⟩ := List.pairwise_cons.mp h
      rw [put]
      split
      · rename_i hsame
        exact List.pairwise_cons.mpr ⟨fun t ht => (hfirst t ht).of_sameArguments hs hsame, hothers⟩
      · rename_i hdiffers
        refine List.pairwise_cons.mpr ⟨fun t ht => ?_, ih hrest hothers⟩
        rcases mem_put ht with rfl | ht
        · exact .of_false hlink (Bool.eq_false_iff.mpr hdiffers)
        · exact hfirst t ht

/-- The arguments that a link takes are taken after a definition as
well, by the link itself or by the one in its place. -/
theorem exists_put (hchain : ∀ s ∈ chain, s.ArgumentsDistinct) (hs : s ∈ chain) :
    ∃ t ∈ put link chain, s.sameArguments t = true := by
  induction chain with
  | nil => exact absurd hs List.not_mem_nil
  | cons first rest ih =>
      obtain ⟨hfirst, hrest⟩ := List.forall_mem_cons.mp hchain
      rw [put]
      split
      · rename_i hsame
        rcases List.mem_cons.mp hs with rfl | hs
        · exact ⟨link, List.mem_cons_self, hsame⟩
        · exact ⟨s, List.mem_cons_of_mem _ hs, Signature.sameArguments_refl (hrest s hs)⟩
      · rcases List.mem_cons.mp hs with rfl | hs
        · exact ⟨s, List.mem_cons_self, Signature.sameArguments_refl hfirst⟩
        · obtain ⟨t, ht, hsame⟩ := ih hrest hs
          exact ⟨t, List.mem_cons_of_mem _ ht, hsame⟩

-- ================================================ well-formed chains

/-- The chain of a function with one definition. -/
theorem isWellFormed_singleton (hlink : link.IsCoherent) :
    IsWellFormed [link] link.name link.returns := by
  have hsame := DataType.same_refl hlink.returns.namesDistinct
  refine ⟨List.cons_ne_nil _ _, ?_, ?_, ?_, ?_, List.pairwise_singleton _ _⟩
  · exact List.forall_mem_singleton.mpr rfl
  · exact List.forall_mem_singleton.mpr (List.forall_mem_singleton.mpr rfl)
  · exact List.forall_mem_singleton.mpr (List.forall_mem_singleton.mpr hsame)
  · exact List.forall_mem_singleton.mpr ⟨hsame, hsame⟩

/-- A definition that agrees with the first link agrees with all of
them. -/
theorem IsWellFormed.agrees (h : chain.IsWellFormed name type)
    (hchain : ∀ s ∈ chain, s.IsCoherent) (hadd : chain.add link = .ok chain') :
    ∀ s ∈ chain, s.arity = link.arity ∧ s.returns.same link.returns = true ∧
      link.returns.same s.returns = true := by
  intro s hs
  cases hhead : chain.head? with
  | none => exact absurd (List.head?_eq_none_iff.mp hhead) h.nonempty
  | some first =>
      have hmem := List.mem_of_head? hhead
      obtain ⟨hreturns, harity⟩ := (add_eq_ok hadd).1 first hhead
      have hback := DataType.same_symm (hchain first hmem).returns.namesDistinct hreturns
      exact ⟨(h.arity s hs first hmem).trans harity,
        DataType.same_trans (h.returns s hs first hmem) hreturns,
        DataType.same_trans hback (h.returns first hmem s hs)⟩

/-- A chain stays well-formed when a link is added that fits it. -/
theorem IsWellFormed.add (h : chain.IsWellFormed name type) (hchain : ∀ s ∈ chain, s.IsCoherent)
    (hlink : link.IsCoherent) (hname : link.name = name) (hadd : chain.add link = .ok chain') :
    chain'.IsWellFormed name type := by
  -- the new link agrees with all that are there, in arity and in type
  have hagrees := h.agrees hchain hadd
  have hself := DataType.same_refl hlink.returns.namesDistinct
  obtain ⟨-, rfl⟩ := add_eq_ok hadd
  refine ⟨put_ne_nil link chain, fun s hs => ?_, fun s hs t ht => ?_, fun s hs t ht => ?_,
    fun s hs => ?_, ?_⟩
  · rcases mem_put hs with rfl | hs
    · exact hname
    · exact h.name s hs
  · rcases mem_put hs with rfl | hold <;> rcases mem_put ht with rfl | hold'
    · rfl
    · exact (hagrees t hold').1.symm
    · exact (hagrees s hold).1
    · exact h.arity s hold t hold'
  · rcases mem_put hs with rfl | hold <;> rcases mem_put ht with rfl | hold'
    · exact hself
    · exact (hagrees t hold').2.2
    · exact (hagrees s hold).2.1
    · exact h.returns s hold t hold'
  -- the type of the chain is that of any link, and there is one
  · rcases mem_put hs with rfl | hs
    · obtain ⟨first, hfirst⟩ := List.exists_mem_of_ne_nil chain h.nonempty
      exact ⟨DataType.same_trans (h.type first hfirst).1 (hagrees first hfirst).2.1,
        DataType.same_trans (hagrees first hfirst).2.2 (h.type first hfirst).2⟩
    · exact h.type s hs
  · exact pairwise_put (fun s hs => (hchain s hs).argumentsDistinct) hlink.argumentsDistinct h.apart

end Overloads

end RelQuery
