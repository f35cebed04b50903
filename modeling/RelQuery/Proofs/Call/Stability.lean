/-
What a call keeps when a definition joins its chain.

A call takes the first link that accepts its arguments. A definition
goes to the end of the chain, where no call that has found a link gets
to, or takes the place of a link with its argument types. Equal types
accept the same arguments, so there it takes exactly the calls which
that link took, and it returns what the chain returns: the first link
vouches for the others, which were once compared with it.

The count of arguments is compared with the first link alone. That one
may be replaced as well, and what replaces it counts as it did.
-/
import RelQuery.Proofs.Call.Overloads

namespace RelQuery

-- ======================================================= acceptance

namespace DataType

variable {d e : DataType}

/-- Equal types are one plain type, or were made alike. -/
@[elab_as_elim]
theorem same_cases {P : DataType → DataType → Prop} (hde : d.same e = true)
    (plain : ∀ t : DataType, t.heading? = none → P t t) (tuple : ∀ h k, P (.tuple h) (.tuple k))
    (relation : ∀ h k, P (.relation h) (.relation k)) (user : ∀ u v, P (.user u) (.user v)) :
    P d e := by
  cases d with
  | tuple h =>
      obtain ⟨k, rfl, -⟩ := same_tuple.mp hde
      exact tuple h k
  | relation h =>
      obtain ⟨k, rfl, -⟩ := same_relation.mp hde
      exact relation h k
  | user u =>
      obtain ⟨v, rfl, -⟩ := same_user.mp hde
      exact user u v
  | _ =>
      rw [(same_plain rfl).mp hde]
      exact plain _ rfl

theorem isPlaceholder_congr (hde : d.same e = true) : d.isPlaceholder = e.isPlaceholder :=
  same_cases hde (fun _ _ => rfl) (fun _ _ => rfl) (fun _ _ => rfl) (fun _ _ => rfl)

/-- Types that are the same have the same supertypes. -/
theorem isSubtypeOf_congr (hd : d.namesDistinct = true) (hde : d.same e = true) (a : DataType) :
    isSubtypeOf d a = isSubtypeOf e a := by
  induction a using DataType.induction with
  | plain a ha =>
      cases a with
      | tuple h | relation h | user u => cases ha
      | _ => rfl
  | tuple h | relation h => rfl
  | user u _ ih =>
      obtain ⟨name, heading, super⟩ := u
      cases super with
      | none => rfl
      | some parent =>
          have hsame : parent.same d = parent.same e := by
            refine Bool.eq_iff_iff.mpr ⟨fun h => same_trans h hde, fun h => ?_⟩
            exact same_trans h (same_symm hd hde)
          rw [isSubtypeOf, isSubtypeOf, hsame, ih parent rfl]

/-- Equal types equal the same types. -/
theorem same_congr (hd : d.namesDistinct = true) (hde : d.same e = true) (a : DataType) :
    d.same a = e.same a :=
  Bool.eq_iff_iff.mpr ⟨same_trans (same_symm hd hde), same_trans hde⟩

/-- Equal types accept the same values. -/
theorem accepts_congr (hd : d.namesDistinct = true) (hde : d.same e = true) (a : DataType) :
    d.accepts a = e.accepts a := by
  have hsame : d.same a = e.same a := same_congr hd hde a
  have hsub : isSubtypeOf d a = isSubtypeOf e a := isSubtypeOf_congr hd hde a
  unfold accepts
  rw [hsame, hsub]
  -- what else a type takes depends on its outermost shape alone
  exact same_cases hde (fun _ _ => rfl) (fun _ _ => rfl) (fun _ _ => rfl) (fun _ _ => rfl)

end DataType

namespace Signature

variable {s t : Signature}

/-- Rows of types that are the same accept the same arguments. -/
theorem acceptAll_congr {ds es : List DataType} (hds : ∀ d ∈ ds, d.namesDistinct = true)
    (hsame : sameTypes ds es = true) (actuals : List DataType) :
    acceptAll ds actuals = acceptAll es actuals := by
  induction ds generalizing es actuals with
  | nil =>
      cases es with
      | nil => rfl
      | cons e es => cases hsame
  | cons d ds ih =>
      cases es with
      | nil => cases hsame
      | cons e es =>
          obtain ⟨hd, hds⟩ := List.forall_mem_cons.mp hds
          obtain ⟨hde, hrest⟩ := Bool.and_eq_true_iff.mp hsame
          cases actuals with
          | nil => rfl
          | cons a actuals =>
              rw [acceptAll, acceptAll, DataType.accepts_congr hd hde, ih hds hrest]

/-- Rows of types that are the same are equally long. -/
theorem length_of_sameTypes {ds es : List DataType} (hsame : sameTypes ds es = true) :
    ds.length = es.length := by
  induction ds generalizing es with
  | nil =>
      cases es with
      | nil => rfl
      | cons e es => cases hsame
  | cons d ds ih =>
      cases es with
      | nil => cases hsame
      | cons e es => exact congrArg (· + 1) (ih (Bool.and_eq_true_iff.mp hsame).2)

/-- Signatures of the same arguments have as many parameters. -/
theorem arity_of_sameArguments (hst : s.sameArguments t = true) : s.arity = t.arity := by
  have hlength := length_of_sameTypes (Bool.and_eq_true_iff.mp hst).2
  rw [argTypes, argTypes, List.length_map, List.length_map] at hlength
  exact hlength

/-- Links with equal argument types accept the same calls. -/
theorem acceptsCall_congr (hs : s.ArgumentsDistinct) (hst : s.sameArguments t = true)
    (actuals : List DataType) : s.acceptsCall actuals = t.acceptsCall actuals := by
  obtain ⟨hvariadic, htypes⟩ := Bool.and_eq_true_iff.mp hst
  unfold acceptsCall
  rw [arity_of_sameArguments hst, acceptAll_congr hs.args htypes]
  cases hsv : s.variadic with
  | none =>
      rw [hsv] at hvariadic
      rw [DataType.sameSuper_none.mp hvariadic]
  | some d =>
      rw [hsv] at hvariadic
      obtain ⟨e, htv, hde⟩ := DataType.sameSuper_some.mp hvariadic
      have haccepts : d.accepts = e.accepts :=
        funext (DataType.accepts_congr (hs.variadic d hsv) hde)
      simp only [htv, haccepts]

/-- They count arguments alike as well. -/
theorem takesCount_congr (hst : s.sameArguments t = true) (count : Nat) :
    Symbol.takesCount s count = Symbol.takesCount t count := by
  have hvariadic : s.variadic.isSome = t.variadic.isSome := by
    have hsame := (Bool.and_eq_true_iff.mp hst).1
    cases hs : s.variadic with
    | none =>
        rw [hs] at hsame
        rw [DataType.sameSuper_none.mp hsame]
    | some d =>
        rw [hs] at hsame
        obtain ⟨e, ht, -⟩ := DataType.sameSuper_some.mp hsame
        rw [ht]
        rfl
  rw [Symbol.takesCount, Symbol.takesCount, hvariadic, arity_of_sameArguments hst]

/-- No type in the signature names a column twice. -/
def NamesDistinct (s : Signature) : Prop :=
  ∀ t ∈ s.types, t.namesDistinct = true

instance (s : Signature) : Decidable s.NamesDistinct :=
  inferInstanceAs (Decidable (∀ t ∈ s.types, _))

theorem NamesDistinct.returns (hs : s.NamesDistinct) : s.returns.namesDistinct = true :=
  hs _ List.mem_cons_self

theorem NamesDistinct.argumentsDistinct (hs : s.NamesDistinct) : s.ArgumentsDistinct where
  args := fun t ht => hs t (List.mem_cons_of_mem _ (List.mem_append_left _ ht))
  variadic := fun t ht =>
    hs t (List.mem_cons_of_mem _ (List.mem_append_right _ (Option.mem_toList.mpr ht)))

end Signature

-- =========================================================== chains

namespace Overloads

variable {chain chain' : Overloads} {link s : Signature} {actuals : List DataType}

/-- Definitions have made the chain, one after another. -/
inductive IsBuilt : Overloads → Prop where
  | nil : IsBuilt []
  | add {chain chain' : Overloads} {link : Signature} (hchain : IsBuilt chain)
      (hlink : link.NamesDistinct) (hadd : chain.add link = .ok chain') : IsBuilt chain'

/-- A chain that was built has links of distinct names. -/
theorem IsBuilt.namesDistinct (h : chain.IsBuilt) : ∀ s ∈ chain, s.NamesDistinct := by
  induction h with
  | nil => exact fun _ h => absurd h List.not_mem_nil
  | add hchain hlink hadd ih =>
      obtain ⟨-, rfl⟩ := add_eq_ok hadd
      intro s hs
      rcases mem_put hs with rfl | hs
      · exact hlink
      · exact ih s hs

/-- A definition returns what each link of the chain does, given that
these agree among themselves. -/
theorem returns_of_add
    (hagree : ∀ s ∈ chain, ∀ t ∈ chain, s.returns.same t.returns = true)
    (hadd : chain.add link = .ok chain') : ∀ s ∈ chain, s.returns.same link.returns = true := by
  intro s hs
  cases chain with
  | nil => exact absurd hs List.not_mem_nil
  | cons first rest =>
      have hfirst := ((add_eq_ok hadd).1 first rfl).1
      exact DataType.same_trans (hagree s hs first List.mem_cons_self) hfirst

/-- All links return the same, although each was compared with the
first one only. -/
theorem IsBuilt.returns (h : chain.IsBuilt) :
    ∀ s ∈ chain, ∀ t ∈ chain, s.returns.same t.returns = true := by
  induction h with
  | nil => exact fun _ h => absurd h List.not_mem_nil
  | add hchain hlink hadd ih =>
      have hnew := returns_of_add ih hadd
      obtain ⟨-, rfl⟩ := add_eq_ok hadd
      intro s hs t ht
      rcases mem_put hs with rfl | hold <;> rcases mem_put ht with rfl | hold'
      · exact DataType.same_refl hlink.returns
      · exact DataType.same_symm (hchain.namesDistinct t hold').returns (hnew t hold')
      · exact hnew s hold
      · exact ih s hold t hold'

/-- The link that a call has found is found after a definition as well,
or the definition has its place. -/
theorem find?_put (link : Signature) (hchain : ∀ s ∈ chain, s.ArgumentsDistinct)
    (h : chain.find? (·.acceptsCall actuals) = some s) :
    (put link chain).find? (·.acceptsCall actuals) = some s ∨
      s.sameArguments link = true ∧
        (put link chain).find? (·.acceptsCall actuals) = some link := by
  induction chain with
  | nil => cases h
  | cons first rest ih =>
      obtain ⟨hfirst, hrest⟩ := List.forall_mem_cons.mp hchain
      rw [List.find?_cons] at h
      rw [put]
      by_cases hsame : first.sameArguments link = true
      · rw [if_pos hsame, List.find?_cons, ← Signature.acceptsCall_congr hfirst hsame]
        split at h
        · cases h
          exact .inr ⟨hsame, rfl⟩
        · exact .inl h
      · rw [if_neg hsame, List.find?_cons]
        split at h
        · exact .inl h
        · exact ih hrest h

/-- A definition leaves a first link that counts arguments alike. -/
theorem takesCount_put (link first : Signature) (rest : Overloads) (count : Nat) :
    ∃ first' rest', put link (first :: rest) = first' :: rest' ∧
      Symbol.takesCount first' count = Symbol.takesCount first count := by
  rw [put]
  split
  · rename_i hsame
    exact ⟨link, rest, rfl, (Signature.takesCount_congr hsame count).symm⟩
  · exact ⟨first, put link rest, rfl, rfl⟩

end Overloads

-- ============================================================ calls

namespace Symbol

variable {s s' : Symbol} {chain chain' : Overloads} {link : Signature} {actuals : List DataType}

/-- Without a merge policy the chain alone makes the choice. -/
theorem choose_plain (hmerge : s.merge = none) (first : Signature) :
    s.choose first actuals = match s.links.find? (·.acceptsCall actuals) with
      | some link => .ok link
      | none => .error (.mismatch s.name actuals) := by
  have hcompares : s.comparesEqualTypes actuals = false := by
    unfold comparesEqualTypes isComparison
    rw [hmerge]
    split <;> rfl
  rw [choose, hcompares]
  rfl

/-- And the chosen link the type. -/
theorem resultType_plain (hmerge : s.merge = none) (call : Signature) :
    s.resultType call actuals = resolveReturn s.name call.returns actuals := by
  rw [resultType, hmerge]

/-- What it takes for a call without a merge policy to succeed. -/
theorem resolve_plain {r : Resolved} (hmerge : s.merge = none) : s.resolve actuals = .ok r ↔
    (∃ first ∈ s.links.head?, takesCount first actuals.length = true) ∧
      s.links.find? (·.acceptsCall actuals) = some r.call ∧
        resolveReturn s.name r.call.returns actuals = .ok r.type := by
  unfold resolve
  split
  · rename_i hlinks
    simp [hlinks]
  · rename_i first rest hlinks
    by_cases hcount : takesCount first actuals.length = true
    · rw [if_neg (by simp [hcount]), except_bind_eq_ok, hlinks]
      simp only [choose_plain hmerge, resultType_plain hmerge, hlinks]
      constructor
      · rintro ⟨call, hcall, h⟩
        obtain ⟨type, htype, h⟩ := except_bind_eq_ok.mp h
        cases h
        split at hcall
        · cases hcall
          exact ⟨⟨first, rfl, hcount⟩, ‹_›, htype⟩
        · cases hcall
      · rintro ⟨-, hfind, htype⟩
        rw [hfind]
        exact ⟨r.call, rfl, except_bind_eq_ok.mpr ⟨r.type, htype, rfl⟩⟩
    · simp [hlinks, hcount]

/-- Whatever a name returns, a call that goes to a link with an equal
return type has an equal type. -/
theorem resolveReturn_same {d e t : DataType} {name name' : String}
    (hactuals : ∀ a ∈ actuals, a.namesDistinct = true) (hde : d.same e = true)
    (h : resolveReturn name d actuals = .ok t) :
    ∃ t', resolveReturn name' e actuals = .ok t' ∧ t.same t' = true := by
  unfold resolveReturn at h ⊢
  rw [← DataType.isPlaceholder_congr hde]
  by_cases hplaceholder : d.isPlaceholder = true
  · rw [if_pos hplaceholder] at h ⊢
    cases actuals with
    | nil => cases h
    | cons first rest =>
        cases h
        exact ⟨_, rfl, DataType.same_refl (hactuals _ List.mem_cons_self)⟩
  · rw [if_neg hplaceholder] at h ⊢
    cases h
    exact ⟨e, rfl, hde⟩

/-- A definition that joins the chain of a name leaves what its calls
resolve to: the type is the same, and so is the link unless the
definition has taken its place. -/
theorem resolve_of_add {s s' : Symbol} {chain chain' : Overloads} {link : Signature}
    {actuals : List DataType} {r : Resolved} (hchain : chain.IsBuilt)
    (hadd : chain.add link = .ok chain') (hactuals : ∀ a ∈ actuals, a.namesDistinct = true)
    (hmerge : s.merge = none) (hmerge' : s'.merge = none) (hcalls : s.calls = some chain)
    (hcalls' : s'.calls = some chain') (h : s.resolve actuals = .ok r) :
    ∃ r', s'.resolve actuals = .ok r' ∧ r.type.same r'.type = true ∧
      (r'.call = r.call ∨ r.call.sameArguments link = true ∧ r'.call = link) ∧
      ((∀ t ∈ chain, t.sameArguments link = false) → r'.call = r.call) := by
  have hlinks : s.links = chain := by rw [links, hcalls]; rfl
  have hlinks' : s'.links = chain' := by rw [links, hcalls']; rfl
  obtain ⟨⟨first, hfirst, hcount⟩, hfind, htype⟩ := (resolve_plain hmerge).mp h
  rw [hlinks] at hfirst hfind
  have hreturns := Overloads.returns_of_add hchain.returns hadd
  have hdistinct := fun t ht => (hchain.namesDistinct t ht).argumentsDistinct
  have hcall := List.mem_of_find?_eq_some hfind
  obtain ⟨-, rfl⟩ := Overloads.add_eq_ok hadd
  -- the first link counts as it did
  have hcount' : ∃ first' ∈ s'.links.head?, takesCount first' actuals.length = true := by
    cases chain with
    | nil => cases hfirst
    | cons head rest =>
        cases hfirst
        obtain ⟨first', rest', hput, hsame⟩ :=
          Overloads.takesCount_put link first rest actuals.length
        rw [hlinks', hput]
        exact ⟨first', rfl, hsame.trans hcount⟩
  rcases Overloads.find?_put link hdistinct hfind with hfind' | ⟨hsame, hfind'⟩
  · obtain ⟨t', htype', ht'⟩ := resolveReturn_same hactuals
      (DataType.same_refl (hchain.namesDistinct _ hcall).returns) htype
    refine ⟨⟨t', r.call⟩, (resolve_plain hmerge').mpr ⟨hcount', ?_, htype'⟩, ht', .inl rfl,
      fun _ => rfl⟩
    rw [hlinks']
    exact hfind'
  · obtain ⟨t', htype', ht'⟩ := resolveReturn_same hactuals (hreturns _ hcall) htype
    refine ⟨⟨t', link⟩, (resolve_plain hmerge').mpr ⟨hcount', ?_, htype'⟩, ht',
      .inr ⟨hsame, rfl⟩, fun hnew => ?_⟩
    · rw [hlinks']
      exact hfind'
    · rw [hnew _ hcall] at hsame
      cases hsame

/-- One function of a heading and one of a number; a definition that
lists the columns the other way takes the place of the former. -/
theorem resolve_of_add_reordered :
    let columns : Heading := [⟨"x", .number⟩, ⟨"y", .text⟩]
    let link (type : DataType) : Signature := ⟨"f", .text, [⟨"a", type⟩], none, 0, false, .deferred⟩
    let numbered := link .number
    let old := link (.relation columns)
    let new := link (.relation columns.reverse)
    ∃ r', (callable "f" .deferred [numbered, new]).resolve [.relation columns] = .ok r' ∧
      DataType.text.same r'.type = true ∧
      (r'.call = old ∨ old.sameArguments new = true ∧ r'.call = new) ∧
      ((∀ t ∈ [numbered, old], t.sameArguments new = false) → r'.call = old) := by
  intro columns link numbered old new
  have hnumbered : numbered.NamesDistinct := by decide
  have hold : old.NamesDistinct := by decide
  have hchain : Overloads.IsBuilt [numbered, old] := .add (.add .nil hnumbered rfl) hold rfl
  have hadd : Overloads.add [numbered, old] new = .ok [numbered, new] := rfl
  have hcall : (callable "f" .deferred [numbered, old]).resolve [.relation columns]
      = .ok ⟨.text, old⟩ := rfl
  exact resolve_of_add hchain hadd (by decide) rfl rfl rfl rfl hcall

end Symbol

end RelQuery
