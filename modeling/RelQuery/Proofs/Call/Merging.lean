/-
What operators on relations make of two operands.

An operator that joins, composes or combines takes two relations and
merges their headings; a comparison takes two operands of one kind and
has a type of its own. Either way the operator treats its operands
alike, so it takes them in any order, and the order shows in nothing but
the order of columns. That needs operands without placeholders: what
stands for any relation without being one would be taken but not merged.

The headings themselves are joined and divided in `Proofs.Type.Joining`.
-/
import RelQuery.Proofs.Type.Definite
import RelQuery.Proofs.Type.Joining

namespace RelQuery

-- ======================================================== operators

/-- The type that a call of two operands has. -/
def Symbol.combine (s : Symbol) (a b : DataType) : Except TypeError DataType :=
  (s.resolve [a, b]).map (·.type)

/-- A symbol with another policy than comparing is no comparison. -/
theorem Symbol.isComparison_eq_false {s : Symbol} {policy : Merge} (hmerge : s.merge = some policy)
    (hpolicy : policy ≠ .compare) : s.isComparison = false := by
  rw [isComparison, hmerge]
  cases policy with
  | compare => exact absurd rfl hpolicy
  | _ => rfl

namespace Signature

/-- Two operands, declared alike, and no more. -/
def isTwofold (link : Signature) : Bool :=
  match link.argTypes, link.variadic with
  | [s, t], none => (s.heading?.isNone && s.same t)
  | _, _ => false

variable {link : Signature} {a b : DataType}

/-- A link that takes two operands takes two of one type. -/
theorem eq_of_isTwofold (h : link.isTwofold = true) :
    ∃ t, link.argTypes = [t, t] ∧ link.variadic = none := by
  unfold isTwofold at h
  split at h
  · rename_i s t hargs hvariadic
    obtain ⟨hplain, hsame⟩ := Bool.and_eq_true_iff.mp h
    cases (DataType.same_plain (Option.isNone_iff_eq_none.mp hplain)).mp hsame
    exact ⟨s, hargs, hvariadic⟩
  · cases h

theorem arity_of_argTypes {types : List DataType} (hargs : link.argTypes = types) :
    link.arity = types.length := by
  rw [← hargs, argTypes, List.length_map, arity]

theorem isTwofold_tables (hargs : link.argTypes = [.table, .table])
    (hvariadic : link.variadic = none) : link.isTwofold = true := by
  rw [isTwofold, hargs, hvariadic]
  rfl

theorem acceptsCall_twofold {t : DataType} (hargs : link.argTypes = [t, t])
    (hvariadic : link.variadic = none) :
    link.acceptsCall [a, b] = (t.accepts a && t.accepts b) := by
  simp [acceptsCall, arity_of_argTypes hargs, hargs, hvariadic, acceptAll]

theorem acceptsCall_swap (h : link.isTwofold = true) :
    link.acceptsCall [a, b] = link.acceptsCall [b, a] := by
  obtain ⟨t, hargs, hvariadic⟩ := eq_of_isTwofold h
  rw [acceptsCall_twofold hargs hvariadic, acceptsCall_twofold hargs hvariadic, Bool.and_comm]

end Signature

namespace Builtin

variable {name : String} {s : Symbol} {policy : Merge}

/-- A comparison declares its operands alike, and what it returns. -/
theorem find?_compare (hs : find? name = some s) (hmerge : s.merge = some .compare) :
    s.links ≠ [] ∧ ∀ link ∈ s.links, link.isTwofold = true ∧ link.returns = .bool := by
  have htable : ∀ s ∈ symbols, s.isComparison = true → s.links.isEmpty = false ∧
      ∀ link ∈ s.links, link.isTwofold = true ∧ DataType.bool.same link.returns = true := by
    decide +kernel
  have hcomparison : s.isComparison = true := by
    rw [Symbol.isComparison, hmerge]
    rfl
  obtain ⟨hlinks, hall⟩ := htable s (List.mem_of_find?_eq_some hs) hcomparison
  refine ⟨List.isEmpty_eq_false_iff.mp hlinks, fun link hlink => ?_⟩
  obtain ⟨htwofold, hreturns⟩ := hall link hlink
  exact ⟨htwofold, (DataType.same_plain rfl).mp hreturns⟩

/-- Any other operator that merges takes two relations. -/
theorem find?_merge (hs : find? name = some s) (hmerge : s.merge = some policy)
    (hpolicy : policy ≠ .compare) :
    ∃ link, s.links = [link] ∧ link.argTypes = [.table, .table] ∧ link.variadic = none := by
  have htable : ∀ s ∈ symbols, s.isComparison = false → s.merge.isSome = true →
      s.links.length = 1 ∧ ∀ link ∈ s.links, link.isTwofold = true ∧
        link.argTypes.all (DataType.table.same ·) = true := by
    decide +kernel
  obtain ⟨hlength, hall⟩ := htable s (List.mem_of_find?_eq_some hs)
    (Symbol.isComparison_eq_false hmerge hpolicy) (by rw [hmerge]; rfl)
  obtain ⟨link, hlink⟩ := List.length_eq_one_iff.mp hlength
  obtain ⟨htwofold, htables⟩ := hall link (hlink ▸ List.mem_singleton_self link)
  obtain ⟨t, hargs, hvariadic⟩ := Signature.eq_of_isTwofold htwofold
  rw [hargs, List.all_cons, Bool.and_eq_true] at htables
  rw [(DataType.same_plain rfl).mp htables.1] at hargs
  exact ⟨link, hlink, hargs, hvariadic⟩

end Builtin

-- ============================================================ types

namespace DataType

variable {a : DataType}

/-- A type without placeholders is no subtype of one. -/
theorem isSubtypeOf_table (ha : a.isDefinite = true) : isSubtypeOf .table a = false := by
  induction a using DataType.induction with
  | plain a hplain =>
      cases a with
      | tuple h | relation h | user u => cases hplain
      | _ => rfl
  | tuple h | relation h => rfl
  | user u _ ih =>
      obtain ⟨name, heading, super⟩ := u
      cases super with
      | none => rfl
      | some parent =>
          have hparent := (isDefinite_user.mp ha).2 parent rfl
          rw [isSubtypeOf, ih parent rfl hparent, Bool.or_false]
          cases parent with
          | table => cases hparent
          | user u =>
              obtain ⟨_, _, _⟩ := u
              rfl
          | _ => rfl

/-- What may stand for any relation is a relation. -/
theorem eq_relation_of_accepts (ha : a.isDefinite = true) (h : table.accepts a = true) :
    ∃ heading, a = .relation heading := by
  rw [accepts, isSubtypeOf_table ha] at h
  cases a with
  | relation heading => exact ⟨heading, rfl⟩
  | table => cases ha
  | _ => cases h

end DataType

-- ========================================================= headings

section

variable {name : String} {h k m : Heading}

/-- Joining succeeds if the headings agree, and makes their join. -/
theorem mergeHeadings_join (hh : h.names.Nodup) (hk : k.names.Nodup) :
    mergeHeadings name .join h k [] = .ok m ↔ h.Agree k ∧ m = h.joined k := by
  rw [mergeHeadings, mapError_eq_ok, joinAll, except_bind_eq_ok]
  simp only [Heading.union_eq_ok hh hk]
  constructor
  · rintro ⟨_, hunion, ⟨⟩⟩
    exact hunion
  · exact fun hunion => ⟨m, hunion, rfl⟩

/-- Composing succeeds if the headings agree, and makes their composition. -/
theorem mergeHeadings_compose (hh : h.names.Nodup) (hk : k.names.Nodup) :
    mergeHeadings name .compose h k [] = .ok m ↔ h.Agree k ∧ m = h.divided k := by
  rw [mergeHeadings, mapError_eq_ok, Heading.compose_eq_ok hh hk]

/-- Merging equals succeeds if the headings are the same, and makes the
first. -/
theorem mergeHeadings_equal {policy : Merge} (hpolicy : policy = .same ∨ policy = .compare) :
    mergeHeadings name policy h k [] = .ok m ↔ DataType.sameHeading k h = true ∧ m = h := by
  have hmerge : mergeHeadings name policy h k [] =
      if DataType.sameHeading k h then .ok h else .error (.headingMismatch name h k) := by
    rcases hpolicy with rfl | rfl <;> cases hsame : DataType.sameHeading k h <;>
      simp [mergeHeadings, hsame]
  rw [hmerge]
  cases hsame : DataType.sameHeading k h with
  | true => simp [eq_comm]
  | false => simp

/-- Merged in either order, headings are the same. -/
theorem mergeHeadings_swap {policy : Merge} (hpolicy : policy ≠ .left)
    (hh : (DataType.relation h).namesDistinct = true)
    (hk : (DataType.relation k).namesDistinct = true)
    (hm : mergeHeadings name policy h k [] = .ok m) :
    ∃ m', mergeHeadings name policy k h [] = .ok m' ∧ DataType.sameHeading m m' = true := by
  obtain ⟨hnames, htypes⟩ := DataType.namesDistinct_relation.mp hh
  obtain ⟨hnames', htypes'⟩ := DataType.namesDistinct_relation.mp hk
  -- policies that ask for equal headings keep the first, and equality holds both
  -- ways
  have hequal : (policy = .same ∨ policy = .compare) →
      ∃ m', mergeHeadings name policy k h [] = .ok m' ∧ DataType.sameHeading m m' = true := by
    intro hkeeps
    obtain ⟨hsame, rfl⟩ := (mergeHeadings_equal hkeeps).mp hm
    have hback : DataType.sameHeading m k = true := by
      have hrelations : (DataType.relation k).same (.relation m) = true :=
        DataType.same_relation.mpr ⟨m, rfl, hsame⟩
      obtain ⟨_, ⟨⟩, hback⟩ := DataType.same_relation.mp (DataType.same_symm hk hrelations)
      exact hback
    exact ⟨k, (mergeHeadings_equal hkeeps).mpr ⟨hback, rfl⟩, hback⟩
  cases policy with
  | join =>
      obtain ⟨hagree, rfl⟩ := (mergeHeadings_join hnames hnames').mp hm
      exact ⟨_, (mergeHeadings_join hnames' hnames).mpr ⟨hagree.symm htypes, rfl⟩,
        Heading.joined_comm hh hk hagree⟩
  | compose =>
      obtain ⟨hagree, rfl⟩ := (mergeHeadings_compose hnames hnames').mp hm
      exact ⟨_, (mergeHeadings_compose hnames' hnames).mpr ⟨hagree.symm htypes, rfl⟩,
        Heading.divided_comm hh hk⟩
  | left => exact absurd rfl hpolicy
  | same => exact hequal (.inl rfl)
  | compare => exact hequal (.inr rfl)

end

-- ============================================================ calls

namespace Symbol

variable {s : Symbol} {first link : Signature} {rest : Overloads} {a b t : DataType}

/-- A call of two operands, once they have been counted. -/
theorem combine_eq_ok (hlinks : s.links = first :: rest) (hfirst : first.isTwofold = true) :
    s.combine a b = .ok t ↔
      ∃ call, s.choose first [a, b] = .ok call ∧ s.resultType call [a, b] = .ok t := by
  obtain ⟨d, hargs, hvariadic⟩ := Signature.eq_of_isTwofold hfirst
  have hcount : takesCount first [a, b].length = true := by
    rw [takesCount, hvariadic, Signature.arity_of_argTypes hargs]
    rfl
  unfold combine resolve
  rw [hlinks]
  simp only [hcount, Bool.not_true, Bool.false_eq_true, if_false]
  rw [map_eq_ok]
  constructor
  · rintro ⟨r, hr, rfl⟩
    obtain ⟨call, hcall, hr⟩ := except_bind_eq_ok.mp hr
    obtain ⟨type, htype, ⟨⟩⟩ := except_bind_eq_ok.mp hr
    exact ⟨call, hcall, htype⟩
  · rintro ⟨call, hcall, htype⟩
    refine ⟨⟨t, call⟩, except_bind_eq_ok.mpr ⟨call, hcall, ?_⟩, rfl⟩
    exact except_bind_eq_ok.mpr ⟨t, htype, rfl⟩

/-- Only a comparison looks at whether its operands are equal. -/
theorem choose_other {policy : Merge} (hmerge : s.merge = some policy)
    (hpolicy : policy ≠ .compare) :
    s.choose first [a, b] = match s.links.find? (·.acceptsCall [a, b]) with
      | some link => .ok link
      | none => .error (.mismatch s.name [a, b]) := by
  rw [choose, comparesEqualTypes, isComparison_eq_false hmerge hpolicy]
  rfl

-- ------------------------------------------------------- comparisons

/-- A comparison finds a link for its operands in either order. -/
theorem choose_swap {call : Signature} (htwofold : ∀ link ∈ s.links, link.isTwofold = true)
    (ha : a.namesDistinct = true) (h : s.choose first [a, b] = .ok call) :
    ∃ call', s.choose first [b, a] = .ok call' := by
  unfold choose at h ⊢
  by_cases hback : s.comparesEqualTypes [b, a] = true
  · rw [if_pos hback]
    exact ⟨_, rfl⟩
  · have hequal : s.comparesEqualTypes [a, b] ≠ true := by
      intro hequal
      obtain ⟨hcomparison, hsame⟩ := Bool.and_eq_true_iff.mp hequal
      exact hback (Bool.and_eq_true_iff.mpr ⟨hcomparison, DataType.same_symm ha hsame⟩)
    rw [if_neg hequal] at h
    rw [if_neg hback]
    split at h
    · rename_i hfind
      have haccepts := List.find?_some hfind
      have hswapped : (s.links.find? (·.acceptsCall [b, a])).isSome = true := by
        refine List.find?_isSome.mpr ⟨_, List.mem_of_find?_eq_some hfind, ?_⟩
        rw [Signature.acceptsCall_swap (htwofold _ (List.mem_of_find?_eq_some hfind))]
        exact haccepts
      obtain ⟨found, hfound⟩ := Option.isSome_iff_exists.mp hswapped
      rw [hfound]
      exact ⟨found, rfl⟩
    · cases h

/-- The result for two relations comes from their headings, unless it
is that of a comparison. -/
theorem resultType_relations {policy : Merge} {call : Signature} {h k : Heading}
    (hmerge : s.merge = some policy) : s.resultType call [.relation h, .relation k] = .ok t ↔
      ∃ m, mergeHeadings s.name policy h k [] = .ok m ∧
        t = if policy = .compare then call.returns else .relation m := by
  unfold resultType
  rw [hmerge]
  refine except_bind_eq_ok.trans (exists_congr fun m => and_congr_right fun _ => ?_)
  constructor
  · rintro ⟨⟩
    rfl
  · rintro rfl
    rfl

/-- With other operands than two relations the declared type is returned. -/
theorem resultType_other {call : Signature} (hother : ∀ h k, a = .relation h → b ≠ .relation k) :
    s.resultType call [a, b] = resolveReturn s.name call.returns [a, b] := by
  unfold resultType
  split
  · rename_i hheadings
    cases a with
    | relation h =>
        cases b with
        | relation k => exact absurd rfl (hother h k rfl)
        | _ => cases hheadings
    | _ => cases hheadings
  · rfl

/-- A comparison is true or false. -/
theorem resultType_compare_swap {call call' : Signature} (hmerge : s.merge = some .compare)
    (hcall : call.returns = .bool) (hcall' : call'.returns = .bool)
    (ha : a.namesDistinct = true) (hb : b.namesDistinct = true)
    (h : s.resultType call [a, b] = .ok t) : t = .bool ∧ s.resultType call' [b, a] = .ok .bool := by
  by_cases hrelations : ∃ h k, a = .relation h ∧ b = .relation k
  · obtain ⟨h, k, rfl, rfl⟩ := hrelations
    obtain ⟨m, hm, rfl⟩ := (resultType_relations hmerge).mp h
    obtain ⟨m', hm', -⟩ := mergeHeadings_swap (by decide) ha hb hm
    exact ⟨hcall, (resultType_relations hmerge).mpr ⟨m', hm', hcall'.symm⟩⟩
  · rw [resultType_other fun h k ha hb => hrelations ⟨h, k, ha, hb⟩, hcall] at h
    cases h
    rw [resultType_other fun k h hb ha => hrelations ⟨h, k, ha, hb⟩, hcall']
    exact ⟨rfl, rfl⟩

-- --------------------------------------------------------- relations

/-- An operator for relations gives two of them the merged heading. -/
theorem combine_relations {name : String} {policy : Merge} {h k : Heading}
    (hs : Builtin.find? name = some s) (hmerge : s.merge = some policy)
    (hpolicy : policy ≠ .compare) : s.combine (.relation h) (.relation k) = .ok t ↔
      ∃ m, mergeHeadings s.name policy h k [] = .ok m ∧ t = .relation m := by
  obtain ⟨link, hlinks, hargs, hvariadic⟩ := Builtin.find?_merge hs hmerge hpolicy
  have htaken : link.acceptsCall [.relation h, .relation k] = true :=
    Signature.acceptsCall_twofold hargs hvariadic
  have hchoose : s.choose link [.relation h, .relation k] = .ok link := by
    rw [choose_other hmerge hpolicy, hlinks, List.find?_cons, htaken]
  rw [combine_eq_ok hlinks (Signature.isTwofold_tables hargs hvariadic), hchoose]
  simp only [Except.ok.injEq, exists_eq_left', resultType_relations hmerge, if_neg hpolicy]

/-- And takes nothing else, if it may not stand for a relation. -/
theorem eq_relation_of_combine {name : String} {policy : Merge}
    (hs : Builtin.find? name = some s) (hmerge : s.merge = some policy)
    (hpolicy : policy ≠ .compare) (ha : a.isDefinite = true) (hb : b.isDefinite = true)
    (h : s.combine a b = .ok t) : ∃ left right, a = .relation left ∧ b = .relation right := by
  obtain ⟨link, hlinks, hargs, hvariadic⟩ := Builtin.find?_merge hs hmerge hpolicy
  obtain ⟨call, hcall, -⟩ :=
    (combine_eq_ok hlinks (Signature.isTwofold_tables hargs hvariadic)).mp h
  rw [choose_other hmerge hpolicy] at hcall
  split at hcall
  · rename_i hfind
    rw [hlinks] at hfind
    have htaken := List.find?_some hfind
    cases List.mem_singleton.mp (List.mem_of_find?_eq_some hfind)
    rw [Signature.acceptsCall_twofold hargs hvariadic, Bool.and_eq_true] at htaken
    obtain ⟨left, rfl⟩ := DataType.eq_relation_of_accepts ha htaken.1
    obtain ⟨right, rfl⟩ := DataType.eq_relation_of_accepts hb htaken.2
    exact ⟨left, right, rfl, rfl⟩
  · cases hcall

-- -------------------------------------------------------------- laws

variable {name : String} {policy : Merge}

/-- An operator gives its operands one type, whichever comes first. -/
theorem combine_swap (hs : Builtin.find? name = some s) (hmerge : s.merge = some policy)
    (hpolicy : policy ≠ .left) (ha : a.namesDistinct = true) (hb : b.namesDistinct = true)
    (ha' : a.isDefinite = true) (hb' : b.isDefinite = true) (h : s.combine a b = .ok t) :
    ∃ t', s.combine b a = .ok t' ∧ t.same t' = true := by
  by_cases hcompare : policy = .compare
  · cases hcompare
    obtain ⟨hlinks, hall⟩ := Builtin.find?_compare hs hmerge
    obtain ⟨first, rest, hfirst⟩ := List.exists_cons_of_ne_nil hlinks
    have hmem : first ∈ s.links := hfirst ▸ List.mem_cons_self
    have hbool : ∀ {a b call}, s.choose first [a, b] = .ok call → call.returns = .bool := by
      intro a b call hcall
      obtain ⟨link, hlink, hreturns, -⟩ := choose_eq_ok hmem hcall
      exact hreturns.trans (hall link hlink).2
    obtain ⟨call, hcall, ht⟩ := (combine_eq_ok hfirst (hall first hmem).1).mp h
    obtain ⟨call', hcall'⟩ := choose_swap (fun link hlink => (hall link hlink).1) ha hcall
    obtain ⟨rfl, ht'⟩ :=
      resultType_compare_swap hmerge (hbool hcall) (hbool hcall') ha hb ht
    exact ⟨.bool, (combine_eq_ok hfirst (hall first hmem).1).mpr ⟨call', hcall', ht'⟩, rfl⟩
  · obtain ⟨h, k, rfl, rfl⟩ := eq_relation_of_combine hs hmerge hcompare ha' hb' h
    obtain ⟨m, hm, rfl⟩ := (combine_relations hs hmerge hcompare).mp h
    obtain ⟨m', hm', hsame⟩ := mergeHeadings_swap hpolicy ha hb hm
    exact ⟨.relation m', (combine_relations hs hmerge hcompare).mpr ⟨m', hm', rfl⟩,
      DataType.same_relation.mpr ⟨m', rfl, hsame⟩⟩

theorem combine_join (hs : Builtin.find? name = some s) (hmerge : s.merge = some .join)
    {h k : Heading} (hh : h.names.Nodup) (hk : k.names.Nodup) :
    s.combine (.relation h) (.relation k) = .ok t ↔ h.Agree k ∧ t = .relation (h.joined k) := by
  rw [combine_relations hs hmerge (by decide)]
  simp only [mergeHeadings_join hh hk, and_assoc, exists_and_left, exists_eq_left]

theorem combine_compose (hs : Builtin.find? name = some s) (hmerge : s.merge = some .compose)
    {h k : Heading} (hh : h.names.Nodup) (hk : k.names.Nodup) :
    s.combine (.relation h) (.relation k) = .ok t ↔ h.Agree k ∧ t = .relation (h.divided k) := by
  rw [combine_relations hs hmerge (by decide)]
  simp only [mergeHeadings_compose hh hk, and_assoc, exists_and_left, exists_eq_left]

/-- Three relations are joined alike, whichever two come first. -/
theorem combine_assoc (hs : Builtin.find? name = some s) (hmerge : s.merge = some .join)
    {h k l : Heading} (htypes : ∀ c ∈ h, c.type.namesDistinct = true) (hh : h.names.Nodup)
    (hk : k.names.Nodup) (hl : l.names.Nodup) :
    (s.combine (.relation h) (.relation k) >>= (s.combine · (.relation l))) = .ok t ↔
      (s.combine (.relation k) (.relation l) >>= s.combine (.relation h)) = .ok t := by
  have hleft : (∃ u, s.combine (.relation h) (.relation k) = .ok u ∧
      s.combine u (.relation l) = .ok t) ↔
        h.Agree k ∧ (h.joined k).Agree l ∧ t = .relation ((h.joined k).joined l) := by
    simp only [combine_join hs hmerge hh hk, and_assoc, exists_and_left, exists_eq_left,
      combine_join hs hmerge (Heading.nodup_names_joined hh hk) hl]
  have hright : (∃ u, s.combine (.relation k) (.relation l) = .ok u ∧
      s.combine (.relation h) u = .ok t) ↔
        k.Agree l ∧ h.Agree (k.joined l) ∧ t = .relation (h.joined (k.joined l)) := by
    simp only [combine_join hs hmerge hk hl, and_assoc, exists_and_left, exists_eq_left,
      combine_join hs hmerge hh (Heading.nodup_names_joined hk hl)]
  rw [except_bind_eq_ok, except_bind_eq_ok, hleft, hright, Heading.joined_assoc]
  constructor
  · rintro ⟨hfirst, hrest, ht⟩
    obtain ⟨houter, hinner⟩ := (Heading.agree_joined_left htypes hfirst).mp hrest
    exact ⟨hinner, (Heading.agree_joined_right hinner).mpr ⟨hfirst, houter⟩, ht⟩
  · rintro ⟨hinner, hrest, ht⟩
    obtain ⟨hfirst, houter⟩ := (Heading.agree_joined_right hinner).mp hrest
    exact ⟨hfirst, (Heading.agree_joined_left htypes hfirst).mpr ⟨houter, hinner⟩, ht⟩

/-- Operators fail on headings that do not agree. -/
theorem combine_fails_iff (hs : Builtin.find? name = some s) (hmerge : s.merge = some policy)
    (hpolicy : policy = .join ∨ policy = .compose) {h k : Heading} (hh : h.names.Nodup)
    (hk : k.names.Nodup) : (∃ e, s.combine (.relation h) (.relation k) = .error e) ↔
      ∃ c ∈ h, ∃ d ∈ k, c.name = d.name ∧ c.type.same d.type = false := by
  have hok : (∃ t, s.combine (.relation h) (.relation k) = .ok t) ↔ h.Agree k := by
    rcases hpolicy with rfl | rfl
    · simp only [combine_join hs hmerge hh hk, exists_and_left, exists_eq, and_true]
    · simp only [combine_compose hs hmerge hh hk, exists_and_left, exists_eq, and_true]
  have hfails : (∃ e, s.combine (.relation h) (.relation k) = .error e) ↔ ¬ h.Agree k := by
    rw [← hok]
    cases s.combine (.relation h) (.relation k) <;> simp
  rw [hfails, Heading.Agree]
  push Not
  simp only [Bool.not_eq_true]

/-- The typing of operators on relations. The order of operands shows in
the order of columns only, and joins may be grouped either way. A join
has the columns of either side and `compose` those of one side only;
both fail if a shared name has different types, and only then. -/
theorem relational_typing (hs : Builtin.find? name = some s) (hmerge : s.merge = some policy)
    (hpolicy : policy ≠ .left) :
    (∀ a b : DataType, a.namesDistinct = true → b.namesDistinct = true →
      a.isDefinite = true → b.isDefinite = true →
        ((∃ t, s.combine a b = .ok t) ↔ ∃ t, s.combine b a = .ok t) ∧
        ∀ t u, s.combine a b = .ok t → s.combine b a = .ok u → t.same u = true) ∧
    (policy = .join → ∀ h k l : Heading, (DataType.relation h).namesDistinct = true →
      (DataType.relation k).namesDistinct = true → (DataType.relation l).namesDistinct = true →
        ∀ t, (s.combine (.relation h) (.relation k) >>= (s.combine · (.relation l))) = .ok t ↔
          (s.combine (.relation k) (.relation l) >>= s.combine (.relation h)) = .ok t) ∧
    (∀ h k : Heading, (DataType.relation h).namesDistinct = true →
      (DataType.relation k).namesDistinct = true →
        (policy = .join → ∀ t, s.combine (.relation h) (.relation k) = .ok t →
          ∃ m : Heading, t = .relation m ∧ m.names.Nodup ∧
            ∀ c, m.HasColumn c ↔ h.HasColumn c ∨ k.HasColumn c) ∧
        (policy = .compose → ∀ t, s.combine (.relation h) (.relation k) = .ok t →
          ∃ m : Heading, t = .relation m ∧ m.names.Nodup ∧
            ∀ c, m.HasColumn c ↔
              h.HasColumn c ∧ c.name ∉ k.names ∨ k.HasColumn c ∧ c.name ∉ h.names) ∧
        (policy = .join ∨ policy = .compose →
          ((∃ e, s.combine (.relation h) (.relation k) = .error e) ↔
            ∃ c ∈ h, ∃ d ∈ k, c.name = d.name ∧ c.type.same d.type = false))) := by
  refine ⟨fun a b ha hb ha' hb' => ⟨⟨?_, ?_⟩, ?_⟩, ?_, fun h k hh hk => ⟨?_, ?_, ?_⟩⟩
  -- the order of operands: either way round succeeds if the other does
  · rintro ⟨t, ht⟩
    obtain ⟨u, hu, -⟩ := combine_swap hs hmerge hpolicy ha hb ha' hb' ht
    exact ⟨u, hu⟩
  · rintro ⟨t, ht⟩
    obtain ⟨u, hu, -⟩ := combine_swap hs hmerge hpolicy hb ha hb' ha' ht
    exact ⟨u, hu⟩
  · intro t u ht hu
    obtain ⟨u', hu', hsame⟩ := combine_swap hs hmerge hpolicy ha hb ha' hb' ht
    rw [hu] at hu'
    cases hu'
    exact hsame
  -- the grouping of joins
  · rintro rfl h k l hh hk hl t
    obtain ⟨hnames, htypes⟩ := DataType.namesDistinct_relation.mp hh
    exact combine_assoc hs hmerge htypes hnames (DataType.namesDistinct_relation.mp hk).1
      (DataType.namesDistinct_relation.mp hl).1
  all_goals
    have hnames := (DataType.namesDistinct_relation.mp hh).1
    have hnames' := (DataType.namesDistinct_relation.mp hk).1
  -- columns of a join and of a composition, and when both fail
  · rintro rfl t ht
    obtain ⟨hagree, rfl⟩ := (combine_join hs hmerge hnames hnames').mp ht
    exact ⟨_, rfl, Heading.nodup_names_joined hnames hnames',
      fun c => Heading.hasColumn_joined hagree⟩
  · rintro rfl t ht
    obtain ⟨-, rfl⟩ := (combine_compose hs hmerge hnames hnames').mp ht
    exact ⟨_, rfl, Heading.nodup_names_divided hnames hnames', fun c => Heading.hasColumn_divided⟩
  · exact fun hpolicy' => combine_fails_iff hs hmerge hpolicy' hnames hnames'

/-- Two relations that share a column whose own columns they list in
another order. -/
theorem relational_typing_shared :
    let pair : Heading := [⟨"x", .number⟩, ⟨"y", .text⟩]
    let left : DataType := .relation [⟨"a", .tuple pair⟩, ⟨"b", .bool⟩]
    let right : DataType := .relation [⟨"c", .time⟩, ⟨"a", .tuple pair.reverse⟩]
    (Builtin.symbolOf "join").combine left right
        = .ok (.relation [⟨"a", .tuple pair⟩, ⟨"b", .bool⟩, ⟨"c", .time⟩]) ∧
      (Builtin.symbolOf "join").combine right left
        = .ok (.relation [⟨"c", .time⟩, ⟨"a", .tuple pair.reverse⟩, ⟨"b", .bool⟩]) ∧
      (DataType.relation [⟨"a", .tuple pair⟩, ⟨"b", .bool⟩, ⟨"c", .time⟩]).same
        (.relation [⟨"c", .time⟩, ⟨"a", .tuple pair.reverse⟩, ⟨"b", .bool⟩]) = true := by
  intro pair left right
  have hfind : Builtin.find? "join" = some (Builtin.symbolOf "join") := rfl
  have htyping := relational_typing hfind rfl (by decide)
  exact ⟨rfl, rfl, (htyping.1 left right rfl rfl rfl rfl).2 _ _ rfl rfl⟩

end Symbol

end RelQuery
