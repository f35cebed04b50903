/-
Reading back what stands around primaries: selections, field lists,
signs and chains.

A field list is read by adding item after item to a list; each item is
given as its tokens and what it adds (`FieldItem`), and the whole is
the fold of what they add.
-/
import RelQuery.Proofs.Grammar.Levels

namespace RelQuery

open Text

namespace Reading

section Expressions

variable {style : Style}

-- ======================================================= field lists

/-- A field list with its marks removed. -/
def plainFields (list : FieldList) : FieldList :=
  ⟨list.allBut, list.order.map OrderKey.unmarked, list.entries.map FieldEntry.unmarked⟩

/-- The tokens of an item of a field list, and what it adds to the list. -/
structure FieldItem where
  tokens : List String
  add : FieldList → FieldList

/-- The item is read with the effect it stands for. -/
def FieldItem.IsRead (d : Nat) (i : FieldItem) : Prop :=
  ∀ list tail, Ends tail → Reads (fieldEntry (nested d) list) (i.tokens ++ tail) tail
    fun list' => plainFields list' = i.add (plainFields list)

/-- Entries are read one by one, each added to the list read so far. -/
theorem fieldEntries_reads {d : Nat} {i : FieldItem} {items : List FieldItem}
    (hitems : ∀ j ∈ i :: items, j.IsRead d) {fuel : Nat} (hfuel : items.length < fuel)
    (list : FieldList) (tail : List String) :
    Reads (fieldEntries (nested d) fuel list)
      (commas ((i :: items).map FieldItem.tokens) ++ "\x7d" :: tail) ("\x7d" :: tail)
      fun list' => plainFields list' =
          (i :: items).foldl (fun l j => j.add l) (plainFields list) := by
  induction items generalizing i fuel list with
  | nil =>
      obtain ⟨fuel, rfl⟩ := Nat.exists_eq_succ_of_ne_zero (Nat.ne_zero_of_lt hfuel)
      refine (hitems i List.mem_cons_self list _ (ends_cons (by decide) tail)).bind fun l hl => ?_
      exact (comma_misses_bracket (by decide) tail).found.followedBy (ReadsAt.result hl)
  | cons next items ih =>
      obtain ⟨fuel, rfl⟩ := Nat.exists_eq_succ_of_ne_zero (Nat.ne_zero_of_lt hfuel)
      rw [List.map_cons, commas, List.append_assoc, List.cons_append]
      · refine (hitems i List.mem_cons_self list _ (ends_cons (by decide) _)).bind fun l hl => ?_
        refine (token_reads "," _).found.followedBy ?_
        refine (ih (fun j hj => hitems j (List.mem_cons_of_mem i hj))
          (Nat.lt_of_succ_lt_succ hfuel) l).weaken fun l' hl' => ?_
        rw [hl', hl]
        rfl
      · simp

/-- The ordering keys of a field list. -/
def orderItem (keys : List OrderKey) : FieldItem where
  tokens := "$" :: "(" :: commas (keys.map OrderKey.tokens) ++ [")"]
  add list := { list with order := list.order ++ keys.map OrderKey.unmarked }

/-- A field of a field list. -/
def entryItem (style : Style) (entry : FieldEntry) : FieldItem where
  tokens := entry.tokens style
  add list := { list with entries := list.entries ++ [entry.unmarked] }

/-- What is written in a field list, after its beginning. -/
def fieldItems (style : Style) (order : List OrderKey) (entries : List FieldEntry) :
    List FieldItem :=
  (if order.isEmpty then [] else [orderItem order]) ++ entries.map (entryItem style)

/-- Ordering keys and entries are written as one list of items. -/
theorem fieldItems_tokens (order : List OrderKey) (entries : List FieldEntry) :
    (fieldItems style order entries).map FieldItem.tokens
      = orderTokens order ++ entryTokens style entries := by
  rw [fieldItems, List.map_append, List.map_map, entryTokens_eq, orderTokens]
  cases order with
  | nil => rfl
  | cons k order => rfl

/-- Items added one by one make up the list that they come from. -/
theorem fieldItems_add (allBut : Bool) (order : List OrderKey) (entries : List FieldEntry) :
    (fieldItems style order entries).foldl (fun l i => i.add l) ⟨allBut, [], []⟩
      = plainFields ⟨allBut, order, entries⟩ := by
  have hentries (order : List OrderKey) (done : List FieldEntry) :
      (entries.map (entryItem style)).foldl (fun l i => i.add l) ⟨allBut, order, done⟩
        = ⟨allBut, order, done ++ entries.map FieldEntry.unmarked⟩ := by
    induction entries generalizing done with
    | nil => simp
    | cons e entries ih =>
        rw [List.map_cons, List.foldl_cons]
        exact (ih _).trans (by simp)
  rw [fieldItems, List.foldl_append]
  cases order with
  | nil => exact hentries [] []
  | cons k order => exact hentries _ []

/-- The keys of an ordering are read back as one item. -/
theorem orderItem_isRead {keys : List OrderKey} (hkeys : ∀ k ∈ keys, isName k.name = true)
    (hne : keys ≠ []) (d : Nat) : (orderItem keys).IsRead d := by
  intro list tail htail
  simp only [orderItem, List.cons_append, List.append_assoc, List.nil_append]
  refine (mark_reads _).bind fun start _ => ?_
  refine (token_reads "$" _).found.followedBy ((expect_reads "(" _).bind fun _ _ => ?_)
  refine (orderKeys_reads hkeys hne tail).bind fun ks hks => ?_
  refine (close_reads ")" tail).bind fun _ _ => ReadsAt.result ?_
  rw [plainFields, List.map_append, hks, plainFields]

/-- An entry is read back if its value is. -/
theorem entryItem_isRead {entry : FieldEntry} (hname : isName entry.name = true)
    (hvalue : ∀ x ∈ entry.value?, IsRead style x) {d : Nat}
    (hd : (entry.tokens style).length ≤ d) : (entryItem style entry).IsRead d := by
  intro list tail htail
  refine (mark_reads _).bind fun start _ => ?_
  cases entry with
  | plain x mark =>
      refine (token_misses (d := '$') rfl (first?_of_isName hname _ rfl)).found.followedBy ?_
      refine (name_reads hname tail).followedBy ?_
      refine (token_misses (d := ':') rfl htail.operand.base.noColon).found.followedBy ?_
      refine ReadsAt.result ?_
      simp [plainFields, entryItem, FieldEntry.unmarked, FieldEntry.name]
  | computed x mark value =>
      refine (token_misses (d := '$') rfl (first?_of_isName hname _ rfl)).found.followedBy ?_
      refine (name_reads hname _).followedBy ((token_reads ":=" _).found.followedBy ?_)
      rw [FieldEntry.tokens, List.length_cons, List.length_cons] at hd
      refine ((hvalue value rfl).expression.inner (by omega) htail).bind fun v hv =>
          ReadsAt.result ?_
      simp [plainFields, entryItem, FieldEntry.unmarked, FieldEntry.name,
        show v.unmarked = value.unmarked from hv]

/-- Every item of a field list is read back. -/
theorem fieldItems_isRead {order : List OrderKey} {entries : List FieldEntry}
    (horder : ∀ k ∈ order, isName k.name = true) (hentries : ∀ e ∈ entries, isName e.name = true)
    (hvalues : ∀ e ∈ entries, ∀ x ∈ e.value?, IsRead style x) {d : Nat}
    (hd : (commas (orderTokens order ++ entryTokens style entries)).length ≤ d) :
    ∀ i ∈ fieldItems style order entries, i.IsRead d := by
  intro i hi
  rcases List.mem_append.mp hi with hkeys | hentry
  · cases order with
    | nil => cases hkeys
    | cons k order =>
        cases List.mem_singleton.mp hkeys
        exact orderItem_isRead horder (List.cons_ne_nil k order) d
  · obtain ⟨e, he, rfl⟩ := List.mem_map.mp hentry
    have hmem : e.tokens style ∈ orderTokens order ++ entryTokens style entries := by
      rw [entryTokens_eq]
      exact List.mem_append_right _ (List.mem_map_of_mem he)
    exact entryItem_isRead (hentries e he) (hvalues e he) (Nat.le_trans (length_le_commas hmem) hd)

/-- An item begins with the sign of an ordering or with a name. -/
theorem fieldItems_begin {order : List OrderKey} {entries : List FieldEntry}
    (hentries : ∀ e ∈ entries, isName e.name = true) {i : FieldItem}
    (hi : i ∈ fieldItems style order entries) :
    ∃ t ts, i.tokens = t :: ts ∧ (t = "$" ∨ isName t = true) := by
  rcases List.mem_append.mp hi with hkeys | hentry
  · cases order with
    | nil => cases hkeys
    | cons k order =>
        cases List.mem_singleton.mp hkeys
        exact ⟨_, _, rfl, .inl rfl⟩
  · obtain ⟨e, he, rfl⟩ := List.mem_map.mp hentry
    cases e with
    | plain x mark => exact ⟨x, [], rfl, .inr (hentries (.plain x mark) he)⟩
    | computed x mark value =>
        exact ⟨x, ":=" :: value.tokens style, rfl, .inr (hentries (.computed x mark value) he)⟩

/-- The items of a list before its brace are not taken for anything
else. -/
theorem items_begin {items : List FieldItem}
    (hitems : ∀ i ∈ items, ∃ t ts, i.tokens = t :: ts ∧ (t = "$" ∨ isName t = true))
    (tail : List String) :
    ∃ t ts, commas (items.map FieldItem.tokens) ++ "\x7d" :: tail = t :: ts ∧
      (t = "\x7d" ∧ items = [] ∨ t = "$" ∨ isName t = true) := by
  cases items with
  | nil => exact ⟨"\x7d", tail, rfl, .inl ⟨rfl, rfl⟩⟩
  | cons i items =>
      obtain ⟨t, ts, htokens, ht⟩ := hitems i List.mem_cons_self
      rw [List.map_cons, commas_cons, htokens]
      exact ⟨t, _, rfl, .inr ht⟩

/-- The items of a field list, read into a list that is still empty. -/
theorem items_reads {d : Nat} {items : List FieldItem} (hitems : ∀ i ∈ items, i.IsRead d)
    (hbegin : ∀ i ∈ items, ∃ t ts, i.tokens = t :: ts ∧ (t = "$" ∨ isName t = true))
    (list : FieldList) (tail : List String) :
    Reads (do
      if (← ahead).head? == some '\x7d' then return list
      else bounded fun fuel => fieldEntries (nested d) fuel list)
      (commas (items.map FieldItem.tokens) ++ "\x7d" :: tail) ("\x7d" :: tail)
      fun list' => plainFields list' = items.foldl (fun l i => i.add l) (plainFields list) := by
  refine (ahead_reads_head _).bind fun text htext => ?_
  rw [htext]
  cases items with
  | nil => exact ReadsAt.result rfl
  | cons i items =>
      have hfirst : first? (commas ((i :: items).map FieldItem.tokens) ++ "\x7d" :: tail)
          ≠ some '\x7d' := by
        obtain ⟨t, ts, heq, ⟨-, hnil⟩ | rfl | ht⟩ := items_begin hbegin tail
        · cases hnil
        · rw [heq]
          exact (by decide : first? ["$"] ≠ some '\x7d')
        · rw [heq]
          exact first?_of_isName ht ts rfl
      rw [if_neg (by simpa using hfirst)]
      refine before_position.bounded fun fuel hfuel => fieldEntries_reads hitems ?_ list tail
      have hle := length_le_remaining (List.cons_ne_nil "," []) (items.map FieldItem.tokens)
        ("\x7d" :: tail)
      obtain ⟨t, ts, htokens, -⟩ := hbegin i List.mem_cons_self
      rw [List.length_map] at hle
      rw [List.map_cons, commas_remaining, htokens, List.length_append, List.length_cons] at hfuel
      omega

/-- A field list is read back up to its closing brace, in any of its forms. -/
theorem fieldList_reads {allBut : Bool} {order : List OrderKey} {entries : List FieldEntry}
    (horder : ∀ k ∈ order, isName k.name = true) (hentries : ∀ e ∈ entries, isName e.name = true)
    (hvalues : ∀ e ∈ entries, ∀ x ∈ e.value?, IsRead style x) {d : Nat}
    (hd : (commas (orderTokens order ++ entryTokens style entries)).length ≤ d)
    (tail : List String) :
    Reads (fieldList (nested d))
      ((if allBut then style.allBut else []) ++
        (commas (orderTokens order ++ entryTokens style entries) ++ "\x7d" :: tail))
      ("\x7d" :: tail) fun list => plainFields list = plainFields ⟨allBut, order, entries⟩ := by
  have hbegin (i : FieldItem) (hi : i ∈ fieldItems style order entries) :=
    fieldItems_begin hentries hi
  have hlist := items_reads (fieldItems_isRead horder hentries hvalues hd) hbegin
    ⟨allBut, [], []⟩ tail
  obtain ⟨t, ts, heq, ht⟩ := items_begin hbegin tail
  rw [show plainFields ⟨allBut, [], []⟩ = ⟨allBut, [], []⟩ from rfl, fieldItems_add, heq] at hlist
  rw [← fieldItems_tokens, heq]
  have hsign {c : Char} (hc : c ≠ '\x7d' ∧ c ≠ '$' ∧ isNameStart c = false) :
      first? (t :: ts) ≠ some c := by
    rcases ht with ⟨rfl, -⟩ | rfl | ht
    · simpa [first?] using Ne.symm hc.1
    · simpa [first?] using Ne.symm hc.2.1
    · exact first?_of_isName ht ts hc.2.2
  have hword : (t :: ts).head? ≠ some "allbut" := by
    rcases ht with ⟨rfl, -⟩ | rfl | ht
    · simp
    · simp
    · exact fun h => ne_of_isName ht rfl (Option.some.inj h)
  -- with all columns, a comma may stand before the first item
  have hcomma : Reads (found comma) ((if style.comma then [","] else []) ++ t :: ts) (t :: ts)
      (· = style.comma) := by
    cases style.comma with
    | true => exact (token_reads "," _).found
    | false => exact (token_misses (d := ',') rfl (hsign (by decide))).found
  cases allBut with
  | false =>
      refine (token_misses (d := '*') rfl (hsign (by decide))).found.followedBy ?_
      exact (keyword_misses (by decide) hword).found.followedBy hlist
  | true =>
      rw [if_pos rfl, Style.allBut, List.cons_append]
      cases style.word with
      | true =>
          refine (token_misses (d := '*') rfl (by simp [first?])).found.followedBy ?_
          refine (keyword_reads "allbut" _).found.followedBy ?_
          exact hcomma.bind fun _ _ => hlist
      | false =>
          refine (token_reads "*" _).found.followedBy ?_
          exact hcomma.bind fun _ _ => hlist

-- ========================================================= selections

/-- The selection of a member is read back if its base is. -/
theorem member_isRead {mark : Nat} {base : Expr} {x : String} (hbase : IsRead style base)
    (hx : isName x = true) : IsRead style (.member mark base x) := by
  refine .ofPostfixed rfl (hbase.opensBase.append (by simp [first?])) fun d tail hd htail => ?_
  simp only [Expr.tokens, List.append_assoc, List.cons_append, List.nil_append, List.length_append,
    List.length_cons] at hd ⊢
  refine (hbase.base d _ (by omega) (endsBase_point _)).selection (fun y start hy => ?_)
    (by simp)
  refine (token_misses (d := '\x7b') rfl (first?_of_isName hx tail rfl)).found.followedBy ?_
  refine (keyword_misses_name hx (by decide) (by decide) tail).found.followedBy ?_
  refine (name_reads hx tail).followedBy (ReadsAt.result ?_)
  rw [Like, Expr.unmarked, Expr.unmarked, hy]

/-- A restriction is read back if base and predicate are. -/
theorem restrict_isRead {mark : Nat} {base predicate : Expr} (hbase : IsRead style base)
    (hpredicate : IsRead style predicate) : IsRead style (.restrict mark base predicate) := by
  refine .ofPostfixed rfl ?_ fun d tail hd htail => ?_
  · rw [Expr.tokens, List.append_assoc]
    exact hbase.opensBase.append (by simp [first?])
  · simp only [Expr.tokens, List.append_assoc, List.cons_append, List.nil_append,
      List.length_append, List.length_cons] at hd ⊢
    refine (hbase.base d _ (by omega) (endsBase_point _)).selection (fun y start hy => ?_)
      (by simp only [List.length_cons, List.length_append]; omega)
    refine (token_misses (d := '\x7b') rfl (by simp [first?])).found.followedBy ?_
    refine (keyword_reads "where" _).found.followedBy ((expect_reads "(" _).bind fun _ _ => ?_)
    refine (hpredicate.expression.inner (by omega) (ends_cons (by decide) tail)).bind fun p hp => ?_
    refine (close_reads ")" tail).bind fun _ _ => ReadsAt.result ?_
    rw [Like, Expr.unmarked, Expr.unmarked, hy, hp]

/-- The selection of fields is read back if base and values are. -/
theorem fields_isRead {mark : Nat} {base : Expr} {list : FieldList} (hbase : IsRead style base)
    (horder : ∀ k ∈ list.order, isName k.name = true)
    (hentries : ∀ e ∈ list.entries, isName e.name = true)
    (hvalues : ∀ e ∈ list.entries, ∀ x ∈ e.value?, IsRead style x) :
    IsRead style (.fields mark base list) := by
  obtain ⟨allBut, order, entries⟩ := list
  dsimp only at horder hentries hvalues
  refine .ofPostfixed rfl ?_ fun d tail hd htail => ?_
  · rw [Expr.tokens, List.append_assoc, List.append_assoc]
    exact hbase.opensBase.append (by simp [first?])
  · simp only [Expr.tokens, List.append_assoc, List.cons_append, List.nil_append,
      List.length_append, List.length_cons] at hd ⊢
    refine (hbase.base d _ (by omega) (endsBase_point _)).selection (fun y start hy => ?_)
      (by simp only [List.length_cons, List.length_append]; omega)
    refine (token_reads "\x7b" _).found.followedBy ?_
    refine (fieldList_reads horder hentries hvalues (by omega) tail).bind fun l hl => ?_
    refine (close_reads "\x7d" tail).bind fun _ _ => ReadsAt.result ?_
    obtain ⟨allBut', order', entries'⟩ := l
    simp only [plainFields, FieldList.mk.injEq] at hl
    rw [Like, Expr.unmarked, Expr.unmarked, unmarkedEntries_eq, unmarkedEntries_eq, hy,
      hl.1, hl.2.1, hl.2.2]

-- ========================================================== operators

/-- A negation is read back if its argument is. -/
theorem not_isRead {mark : Nat} {arg : Expr} (harg : IsRead style arg) :
    IsRead style (.not mark arg) := by
  refine .ofOperand rfl rfl (opens_token rfl rfl _) fun d tail hd htail => ?_
  rw [Expr.tokens, List.length_cons] at hd
  obtain ⟨d, rfl⟩ := Nat.exists_eq_succ_of_ne_zero (Nat.ne_zero_of_lt hd)
  refine (mark_reads _).bind fun start _ => (keyword_reads "not" _).found.followedBy ?_
  refine (harg.operand d tail (by omega) htail).required.bind fun x hx => ReadsAt.result ?_
  rw [Like, Expr.unmarked, Expr.unmarked, hx]

/-- A minus is read back if its argument is. -/
theorem neg_isRead {mark : Nat} {arg : Expr} (harg : IsRead style arg) :
    IsRead style (.neg mark arg) := by
  refine .ofOperand rfl rfl (opens_token rfl rfl _) fun d tail hd htail => ?_
  rw [Expr.tokens, List.length_cons] at hd
  obtain ⟨d, rfl⟩ := Nat.exists_eq_succ_of_ne_zero (Nat.ne_zero_of_lt hd)
  refine (mark_reads _).bind fun start _ => ?_
  refine (keyword_misses (by decide) (by simp [Expr.tokens])).found.followedBy ?_
  refine (token_reads "-" _).found.followedBy ?_
  refine (harg.operand d tail (by omega) htail).required.bind fun x hx => ReadsAt.result ?_
  rw [Like, Expr.unmarked, Expr.unmarked, hx]

/-- The steps of a chain begin with an operator. -/
theorem endsOperand_steps {ss : List Step} (hops : ∀ s ∈ ss, isInfix s.op = true)
    {tail : List String} (htail : EndsOperand tail) :
    EndsOperand (stepTokens style ss ++ tail) := by
  cases ss with
  | nil => exact htail
  | cons s ss =>
      obtain ⟨op, mark, operand⟩ := s
      exact endsOperand_infix (hops _ List.mem_cons_self) _

/-- The steps of a chain are read one by one, until no operator follows. -/
theorem steps_reads {ss : List Step} (hops : ∀ s ∈ ss, isInfix s.op = true)
    (hoperands : ∀ s ∈ ss, IsRead style s.operand) {d fuel : Nat}
    (hd : (stepTokens style ss).length ≤ d) (hfuel : ss.length ≤ fuel) {tail : List String}
    (htail : Ends tail) :
    Reads (steps (operandOf (nested d)) fuel) (stepTokens style ss ++ tail) tail
      fun rs => unmarkedSteps rs = unmarkedSteps ss := by
  induction ss generalizing fuel with
  | nil =>
      have hnone : Misses infixOperator tail := infixOperator_misses htail
      exact (before_position.steps_stop fuel hnone).weaken fun rs hrs => by rw [hrs]
  | cons s ss ih =>
      obtain ⟨op, mark, operand⟩ := s
      obtain ⟨fuel, rfl⟩ := Nat.exists_eq_succ_of_ne_zero (Nat.ne_zero_of_lt hfuel)
      simp only [stepTokens, List.cons_append, List.append_assoc, List.length_cons,
        List.length_append] at hd ⊢
      have hends : EndsOperand (stepTokens style ss ++ tail) :=
        endsOperand_steps (fun s hs => hops s (List.mem_cons_of_mem _ hs)) htail.operand
      have hoperand : IsRead style operand := hoperands _ List.mem_cons_self
      refine (mark_reads _).bind fun start _ => ?_
      refine (infixOperator_reads (hops _ List.mem_cons_self) _).optional.bind fun o ho => ?_
      obtain ⟨op', rfl, rfl⟩ := ho
      refine (hoperand.operand d _ (by omega) hends).required.bind fun x hx => ?_
      refine (ih (fun s hs => hops s (List.mem_cons_of_mem _ hs))
        (fun s hs => hoperands s (List.mem_cons_of_mem _ hs)) (by omega)
        (Nat.le_of_succ_le_succ hfuel)).bind fun rs hrs => ReadsAt.result ?_
      rw [unmarkedSteps, unmarkedSteps, hx, hrs]

/-- Every step takes at least one token. -/
theorem length_le_stepTokens (style : Style) (ss : List Step) :
    ss.length ≤ (stepTokens style ss).length := by
  induction ss with
  | nil => exact Nat.zero_le _
  | cons s ss ih =>
      obtain ⟨op, mark, operand⟩ := s
      simp only [stepTokens, List.cons_append, List.length_cons, List.length_append]
      omega

/-- A chain is read back if its operands are. -/
theorem chain_isRead {mark : Nat} {first : Expr} {ss : List Step} (hne : ss ≠ [])
    (hops : ∀ s ∈ ss, isInfix s.op = true) (hfirst : IsRead style first)
    (hoperands : ∀ s ∈ ss, IsRead style s.operand) : IsRead style (.chain mark first ss) := by
  -- a chain as the first operand is written in brackets
  have hopens : Opens begins (grouped first.isChain (first.tokens style)) := by
    cases first.isChain with
    | true => exact opens_token rfl rfl _
    | false => exact hfirst.opens
  have hcolon : first? (stepTokens style ss) ≠ some ':' := by
    rw [← List.append_nil (stepTokens style ss)]
    exact (endsOperand_steps hops ends_nil.operand).base.noColon
  -- without brackets the chain is read up to what ends it
  refine .ofChain rfl rfl (hopens.append hcolon) fun d tail hd htail => ?_
  simp only [Expr.tokens, List.append_assoc, List.length_append] at hd ⊢
  have hsteps : Reads (bounded (steps (operandOf (nested d)))) (stepTokens style ss ++ tail) tail
      fun rs => unmarkedSteps rs = unmarkedSteps ss := by
    refine before_position.bounded fun fuel hfuel => ?_
    have hle := length_le_stepTokens style ss
    rw [List.length_append] at hfuel
    exact steps_reads hops hoperands (by omega) (by omega) htail
  refine (mark_reads _).bind fun start _ => ?_
  have hends : EndsOperand (stepTokens style ss ++ tail) := endsOperand_steps hops htail.operand
  refine (hfirst.operand d _ (by omega) hends).bind fun x hx => hsteps.bind fun rs hrs => ?_
  -- at least one step makes it a chain
  cases rs with
  | nil =>
      rw [unmarkedSteps_eq, unmarkedSteps_eq] at hrs
      exact absurd (List.map_eq_nil_iff.mp hrs.symm) hne
  | cons r rs =>
      refine ReadsAt.result ?_
      rw [Like, Expr.unmarked, Expr.unmarked, hx, hrs]

end Expressions

end Reading

end RelQuery
