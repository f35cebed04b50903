/-
What is asked of every type alike.

Three things are shown of what building makes: that no placeholder
occurs in its types, that they can stand in for their supertypes, and
that code can be made of it. None of them looks at how a type was come
by. A `Standard` is a property of types that headings keep when they are
made column by column, so it holds of whatever is put together from
types that meet it: of joined and composed headings, and of what a call
returns. It may also ask something of the times that are written out.

Placeholders stand in the signatures of builtins only, and a call
replaces the one it returns. Its type is merged from the headings of the
operands, or it is the type of the first operand, or it was declared
without a placeholder. So the result of a call meets the standard if its
operands do and its symbol settles: a link that returns a placeholder
must not belong to a comparison, whose declared type is taken as it is.
-/
import RelQuery.Call.Builtin
import RelQuery.Call.Resolution
import RelQuery.Time.Moment

namespace RelQuery

-- ========================================================== results

section

variable {ε ε' α β : Type} {r : Except ε α}

/-- Two steps succeed if the first does and the second does on what it
gave. -/
theorem except_bind_eq_ok {f : α → Except ε β} {b : β} :
    (r >>= f) = .ok b ↔ ∃ a, r = .ok a ∧ f a = .ok b := by
  cases r with
  | ok a => simp [bind, Except.bind]
  | error e => simp [bind, Except.bind]

theorem mapError_eq_ok {f : ε → ε'} {a : α} : r.mapError f = .ok a ↔ r = .ok a := by
  cases r with
  | ok b =>
      show Except.ok b = .ok a ↔ Except.ok b = .ok a
      rw [Except.ok.injEq, Except.ok.injEq]
  | error e =>
      constructor
      · intro h
        cases h
      · intro h
        cases h

theorem map_eq_ok {f : α → β} {b : β} : r.map f = .ok b ↔ ∃ a, r = .ok a ∧ f a = b := by
  cases r with
  | ok a => simp [Except.map]
  | error e => simp [Except.map]

end

-- ======================================================== standards

/-- A property of types and of the headings made of them, and one of
times. -/
structure Standard where
  /-- The type meets the standard. -/
  Allows : DataType → Prop
  /-- The heading can be that of a type which meets the standard. -/
  AllowsHeading : Heading → Prop
  /-- A literal may hold the time. -/
  AllowsTime : Moment → Prop
  /-- A type that holds no others meets it, unless it stands in for
  one. -/
  plain : ∀ {t : DataType}, t.heading? = none → t.isPlaceholder = false → Allows t
  tuple : ∀ {h : Heading}, Allows (.tuple h) ↔ AllowsHeading h
  relation : ∀ {h : Heading}, Allows (.relation h) ↔ AllowsHeading h
  user : ∀ {user : UserType}, Allows (.user user) → AllowsHeading user.heading
  types : ∀ {h : Heading}, AllowsHeading h → ∀ c ∈ h, Allows c.type
  nil : AllowsHeading []
  push : ∀ {h k : Heading} {c : Column}, AllowsHeading h → Allows c.type → h.push c = .ok k →
    AllowsHeading k
  filter : ∀ {h : Heading} (p : Column → Bool), AllowsHeading h → AllowsHeading (h.filter p)

namespace Standard

variable {S : Standard} {t : DataType} {h k : Heading} {c : Column}

/-- A type with a name of its own holds no others. -/
theorem ofName? {name : String} (h : DataType.ofName? name = some t) : S.Allows t := by
  unfold DataType.ofName? at h
  split at h
  all_goals cases h
  all_goals exact S.plain rfl rfl

-- ========================================================= headings

/-- The heading of a type that meets the standard. -/
theorem heading? (ht : S.Allows t) (hh : t.heading? = some h) : S.AllowsHeading h := by
  cases t with
  | tuple k =>
      cases hh
      exact S.tuple.mp ht
  | relation k =>
      cases hh
      exact S.relation.mp ht
  | user u =>
      cases hh
      exact S.user ht
  | _ => cases hh

/-- The heading of a type, none if it has no heading. -/
theorem headingD (ht : S.Allows t) : S.AllowsHeading (t.heading?.getD []) := by
  cases hh : t.heading? with
  | none => exact S.nil
  | some h => exact heading? ht hh

theorem get? (hh : S.AllowsHeading h) {name : String} (hc : h.get? name = some c) :
    S.Allows c.type :=
  S.types hh c (List.mem_of_find?_eq_some hc)

/-- A column with a new name may be added. -/
theorem append (hh : S.AllowsHeading h) (hc : S.Allows c.type) (hname : h.has c.name = false) :
    S.AllowsHeading (h ++ [c]) := by
  refine S.push hh hc ?_
  rw [Heading.push, hname]
  rfl

/-- A column of an allowed type may be inserted. -/
theorem insertNew (hh : S.AllowsHeading h) (hc : S.Allows c.type) :
    S.AllowsHeading (h.insertNew c) := by
  unfold Heading.insertNew
  split
  · exact hh
  · exact append hh hc (Bool.eq_false_iff.mpr ‹_›)

/-- Columns of allowed types may be inserted. -/
theorem foldl_insertNew {columns : List Column} (hh : S.AllowsHeading h)
    (hcolumns : ∀ c ∈ columns, S.Allows c.type) :
    S.AllowsHeading (columns.foldl Heading.insertNew h) := by
  induction columns generalizing h with
  | nil => exact hh
  | cons c rest ih =>
      obtain ⟨hc, hrest⟩ := List.forall_mem_cons.mp hcolumns
      exact ih (insertNew hh hc) hrest

/-- Columns of allowed types may be pushed. -/
theorem pushAll {columns : List Column} (hh : S.AllowsHeading h)
    (hcolumns : ∀ c ∈ columns, S.Allows c.type) (hk : h.pushAll columns = .ok k) :
    S.AllowsHeading k := by
  induction columns generalizing h with
  | nil =>
      cases hk
      exact hh
  | cons c rest ih =>
      obtain ⟨hc, hrest⟩ := List.forall_mem_cons.mp hcolumns
      obtain ⟨next, hpush, hk⟩ := except_bind_eq_ok.mp hk
      exact ih (S.push hh hc hpush) hrest hk

/-- Joining two headings adds the columns that the first has no name
for. -/
theorem union {others : List Column} (hh : S.AllowsHeading h)
    (hothers : ∀ c ∈ others, S.Allows c.type) (hk : h.union others = .ok k) :
    S.AllowsHeading k := by
  induction others generalizing h with
  | nil =>
      cases hk
      exact hh
  | cons c rest ih =>
      obtain ⟨hc, hrest⟩ := List.forall_mem_cons.mp hothers
      unfold Heading.union at hk
      split at hk
      · split at hk
        · exact ih hh hrest hk
        · cases hk
      · rename_i hmissing
        have hname : h.has c.name = false := by
          rw [Heading.has, List.any_eq_false]
          exact List.find?_eq_none.mp hmissing
        exact ih (append hh hc hname) hrest hk

/-- The composition of allowed headings is allowed. -/
theorem compose {others : Heading} (hh : S.AllowsHeading h) (hothers : S.AllowsHeading others)
    (hk : h.compose others = .ok k) : S.AllowsHeading k := by
  obtain ⟨joined, hunion, hk⟩ := except_bind_eq_ok.mp hk
  cases hk
  exact S.filter _ (union hh (S.types hothers) hunion)

-- ============================================================ calls

/-- The headings of allowed relation types are allowed. -/
theorem relationHeadings? {types : List DataType} {headings : List Heading}
    (htypes : ∀ t ∈ types, S.Allows t) (h : relationHeadings? types = some headings) :
    ∀ heading ∈ headings, S.AllowsHeading heading := by
  induction types generalizing headings with
  | nil =>
      cases h
      exact fun _ h => absurd h List.not_mem_nil
  | cons t rest ih =>
      obtain ⟨ht, hrest⟩ := List.forall_mem_cons.mp htypes
      cases t with
      | relation first =>
          obtain ⟨others, hothers, rfl⟩ := Option.map_eq_some_iff.mp h
          exact List.forall_mem_cons.mpr ⟨S.relation.mp ht, ih hrest hothers⟩
      | _ => cases h

/-- The join of allowed headings is allowed. -/
theorem joinAll {out merged : Heading} {headings : List Heading} (hout : S.AllowsHeading out)
    (hheadings : ∀ h ∈ headings, S.AllowsHeading h) (h : joinAll out headings = .ok merged) :
    S.AllowsHeading merged := by
  induction headings generalizing out with
  | nil =>
      cases h
      exact hout
  | cons first rest ih =>
      obtain ⟨hfirst, hrest⟩ := List.forall_mem_cons.mp hheadings
      obtain ⟨next, hunion, h⟩ := except_bind_eq_ok.mp h
      exact ih (union hout (S.types hfirst) hunion) hrest h

/-- Headings are merged into one that is allowed, by any policy. -/
theorem mergeHeadings {name : String} {policy : Merge} {first second merged : Heading}
    {others : List Heading} (hfirst : S.AllowsHeading first) (hsecond : S.AllowsHeading second)
    (hothers : ∀ h ∈ others, S.AllowsHeading h)
    (h : mergeHeadings name policy first second others = .ok merged) :
    S.AllowsHeading merged := by
  cases policy with
  | join =>
      exact joinAll hfirst (List.forall_mem_cons.mpr ⟨hsecond, hothers⟩) (mapError_eq_ok.mp h)
  | compose => exact compose hfirst hsecond (mapError_eq_ok.mp h)
  | left =>
      obtain ⟨joined, -, rfl⟩ := map_eq_ok.mp (mapError_eq_ok.mp h)
      exact hfirst
  | same | compare =>
      unfold RelQuery.mergeHeadings at h
      dsimp only at h
      split at h
      · cases h
      · cases h
        exact hfirst

/-- A placeholder that is returned stands for the type of the first
operand. -/
theorem resolveReturn {name : String} {declared : DataType} {actuals : List DataType}
    (hdeclared : S.Allows declared ∨ declared.isPlaceholder = true)
    (hactuals : ∀ a ∈ actuals, S.Allows a) (h : resolveReturn name declared actuals = .ok t) :
    S.Allows t := by
  unfold RelQuery.resolveReturn at h
  split at h
  · cases actuals with
    | nil => cases h
    | cons first rest =>
        cases h
        exact hactuals _ List.mem_cons_self
  · cases h
    exact hdeclared.resolve_right ‹_›

end Standard

namespace Signature

variable {s : Signature} {actuals : List DataType}

/-- Declared types accept as many actual ones. -/
theorem length_of_acceptAll {declared : List DataType} (h : acceptAll declared actuals = true) :
    declared.length = actuals.length := by
  induction declared generalizing actuals with
  | nil =>
      cases actuals with
      | nil => rfl
      | cons a as => cases h
  | cons d ds ih =>
      cases actuals with
      | nil => cases h
      | cons a as =>
          rw [acceptAll, Bool.and_eq_true] at h
          rw [List.length_cons, List.length_cons, ih h.2]

/-- A link that accepts a call has no more parameters than there are
arguments. -/
theorem arity_le_of_acceptsCall (h : s.acceptsCall actuals = true) :
    s.arity ≤ actuals.length := by
  rw [acceptsCall, Bool.and_eq_true] at h
  have hlength : s.arity = (actuals.take s.arity).length := by
    rw [← length_of_acceptAll h.1, argTypes, List.length_map, arity]
  rw [List.length_take] at hlength
  exact hlength ▸ Nat.min_le_right _ _

/-- Actual types take the place of declared ones, one by one. -/
theorem arity_withTypes (s : Signature) (actuals : List DataType) :
    (s.withTypes actuals).arity = s.arity := by
  simp only [withTypes, arity, List.length_append, List.length_zipWith, List.length_drop]
  omega

end Signature

namespace Symbol

variable {S : Standard} {s : Symbol} {actuals : List DataType}

/-- Links that may take a number of arguments have no more parameters. -/
theorem arity_le_of_takesCount {first : Signature} {count : Nat}
    (h : takesCount first count = true) : first.arity ≤ count := by
  unfold takesCount at h
  split at h
  · exact of_decide_eq_true h
  · exact Nat.le_of_eq (beq_iff_eq.mp h).symm

/-- What each link returns meets the standard, or is a placeholder that a
call replaces. -/
def Settles (S : Standard) (s : Symbol) : Prop :=
  ∀ link ∈ s.links, S.Allows link.returns ∨
    link.returns.isPlaceholder = true ∧ s.isComparison = false

/-- What is chosen is one of the links, argument types aside. -/
theorem choose_eq_ok {first call : Signature} (hfirst : first ∈ s.links)
    (h : s.choose first actuals = .ok call) : ∃ link ∈ s.links, call.returns = link.returns ∧
      call.kind = link.kind ∧ call.windowed = link.windowed := by
  unfold choose at h
  split at h
  · cases h
    exact ⟨first, hfirst, rfl, rfl, rfl⟩
  · split at h
    · cases h
      exact ⟨_, List.mem_of_find?_eq_some ‹_›, rfl, rfl, rfl⟩
    · cases h

/-- The result of a call has an allowed type: the one of the link, or one
made of operands. -/
theorem resultType_allowed {call : Signature} {t : DataType}
    (hcall : S.Allows call.returns ∨ call.returns.isPlaceholder = true ∧ s.isComparison = false)
    (hactuals : ∀ a ∈ actuals, S.Allows a) (h : s.resultType call actuals = .ok t) :
    S.Allows t := by
  unfold resultType at h
  split at h
  · rename_i policy first second others hmerge hheadings
    have hall := Standard.relationHeadings? hactuals hheadings
    obtain ⟨hfirst, hrest⟩ := List.forall_mem_cons.mp hall
    obtain ⟨hsecond, hothers⟩ := List.forall_mem_cons.mp hrest
    obtain ⟨merged, hmerged, h⟩ := except_bind_eq_ok.mp h
    cases h
    split
    · -- a comparison has its declared type
      rename_i hcompare
      refine hcall.resolve_right fun hplaceholder => ?_
      have hcomparison : s.isComparison = true := by
        rw [isComparison, hmerge, hcompare]
        rfl
      rw [hcomparison] at hplaceholder
      exact nomatch hplaceholder.2
    · exact S.relation.mpr (Standard.mergeHeadings hfirst hsecond hothers hmerged)
  · exact Standard.resolveReturn (hcall.imp_right And.left) hactuals h

/-- A call that resolves has the right number of arguments, and its link
and its type are found. -/
theorem resolve_eq_ok {r : Resolved} (h : s.resolve actuals = .ok r) :
    ∃ first ∈ s.links, takesCount first actuals.length = true ∧
      s.choose first actuals = .ok r.call ∧ s.resultType r.call actuals = .ok r.type := by
  unfold resolve at h
  split at h
  · cases h
  · rename_i first rest hlinks
    split at h
    · cases h
    · rename_i hcount
      obtain ⟨call, hchoose, h⟩ := except_bind_eq_ok.mp h
      obtain ⟨type, htype, h⟩ := except_bind_eq_ok.mp h
      cases h
      have hfirst : first ∈ s.links := by
        rw [hlinks]
        exact List.mem_cons_self
      have htakes : takesCount first actuals.length = true := by simpa using hcount
      exact ⟨first, hfirst, htakes, hchoose, htype⟩

/-- The fixed arguments are given in every call that resolves. The link
of a comparison is not matched against the types, so it is the count
that says so there. -/
theorem arity_le_of_resolve {r : Resolved} (h : s.resolve actuals = .ok r) :
    r.call.arity ≤ actuals.length := by
  obtain ⟨first, -, hcount, hchoose, -⟩ := resolve_eq_ok h
  unfold choose at hchoose
  split at hchoose
  · rw [← Except.ok.inj hchoose, Signature.arity_withTypes]
    exact arity_le_of_takesCount hcount
  · split at hchoose
    · rename_i link hlink
      have haccepts : link.acceptsCall actuals = true :=
        List.find?_some (p := (Signature.acceptsCall · actuals)) hlink
      rw [← Except.ok.inj hchoose]
      exact Signature.arity_le_of_acceptsCall haccepts
    · cases hchoose

/-- A call with operands that meet the standard has a type that does. -/
theorem Settles.resolve (hs : s.Settles S) {r : Resolved} (hactuals : ∀ a ∈ actuals, S.Allows a)
    (h : s.resolve actuals = .ok r) : S.Allows r.type := by
  obtain ⟨first, hfirst, -, hchoose, htype⟩ := resolve_eq_ok h
  obtain ⟨link, hlink, hreturns, -⟩ := choose_eq_ok hfirst hchoose
  refine resultType_allowed ?_ hactuals htype
  rw [hreturns]
  exact hs link hlink

end Symbol

/-- A builtin declares no heading. It returns a type that holds no
others or a bare placeholder, and a comparison never the latter. -/
theorem Builtin.find?_settles (S : Standard) {name : String} {s : Symbol}
    (h : Builtin.find? name = some s) : s.Settles S := by
  have htable : ∀ s ∈ Builtin.symbols, ∀ link ∈ s.links, link.returns.heading?.isNone = true ∧
      (link.returns.isPlaceholder = false ∨ s.isComparison = false) := by decide +kernel
  intro link hlink
  obtain ⟨hplain, hplaceholder⟩ := htable s (List.mem_of_find?_eq_some h) link hlink
  cases hreturns : link.returns.isPlaceholder with
  | false => exact .inl (S.plain (Option.isNone_iff_eq_none.mp hplain) hreturns)
  | true =>
      rw [hreturns] at hplaceholder
      exact .inr ⟨rfl, hplaceholder.resolve_left nofun⟩

end RelQuery
