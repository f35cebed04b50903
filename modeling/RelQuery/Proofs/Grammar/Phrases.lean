/-
Reading back what is written between commas: columns, types and
ordering keys.

A list is read item by item. Each item is followed by a comma or by
what closes the list, and both end an item, whatever it is (`Ends`);
that is all an item has to be told about what follows it. The lists
themselves are read by the rules for all lists with a separator, whose
items are here columns, types or keys.
-/
import RelQuery.Proofs.Grammar.Following

namespace RelQuery

open Text

namespace Reading

-- ====================================================== between commas

theorem commas_cons (item : List String) (rest : List (List String)) :
    commas (item :: rest) = item ++ rest.flatMap ("," :: ·) := by
  induction rest generalizing item with
  | nil => exact (List.append_nil _).symm
  | cons next rest ih =>
      rw [List.flatMap_cons, List.cons_append, ← ih]
      rfl

/-- An item is no longer than the list that it stands in. -/
theorem length_le_commas {item : List String} {items : List (List String)} (h : item ∈ items) :
    item.length ≤ (commas items).length := by
  induction items with
  | nil => cases h
  | cons first rest ih =>
      rw [commas_cons, List.length_append]
      rcases List.mem_cons.mp h with rfl | hmem
      · exact Nat.le_add_right _ _
      · have hle := ih hmem
        cases rest with
        | nil => cases hmem
        | cons next rest =>
            rw [commas_cons, List.length_append] at hle
            rw [List.flatMap_cons, List.length_append, List.length_cons]
            omega

/-- The bracket that closes a list. -/
def brackets : List String := [")", "\x7d"]

theorem ends_bracket {close : String} (hclose : close ∈ brackets) (tail : List String) :
    Ends (close :: tail) :=
  ends_cons ((show ∀ t ∈ brackets, t ∈ closers by decide) close hclose) tail

/-- A bracket begins nothing but itself. -/
theorem first?_bracket {close : String} (hclose : close ∈ brackets) (tail : List String) {d : Char}
    (hd : ∀ t ∈ brackets, t.toList.head? ≠ some d) : first? (close :: tail) ≠ some d :=
  hd close hclose

/-- A closing bracket is no name. -/
theorem ident_misses_bracket {close : String} (hclose : close ∈ brackets) (tail : List String) :
    Misses ident (close :: tail) := by
  refine ident_misses fun t ht => ?_
  cases ht
  exact (show ∀ t ∈ brackets, isName t = false by decide) close hclose

theorem comma_misses_bracket {close : String} (hclose : close ∈ brackets) (tail : List String) :
    Misses comma (close :: tail) :=
  token_misses rfl (first?_bracket (d := ',') hclose tail (by decide))

/-- A list after its first item goes on with a comma or ends. -/
theorem ends_remaining {tail : List String} (h : Ends tail) (items : List (List String)) :
    Ends (remaining [","] items tail) := by
  cases items with
  | nil => exact h
  | cons item items => exact ends_cons (by decide) _

/-- Items between commas are the first one and what remains. -/
theorem commas_remaining (item : List String) (items : List (List String)) (tail : List String) :
    commas (item :: items) ++ tail = item ++ remaining [","] items tail := by
  rw [commas_cons, List.append_assoc]
  rfl

section Lists

variable {α γ : Type} {item : Reading α} {tokens : α → List String} {plain : α → γ}

/-- The reader reads an item back, up to what `plain` takes away, before
anything that ends it. -/
def ReadsItem (item : Reading α) (tokens : α → List String) (plain : α → γ) (x : α) : Prop :=
  ∀ tail, Ends tail → Reads item (tokens x ++ tail) tail fun y => plain y = plain x

variable {xs : List α} (hitem : ∀ x ∈ xs, ReadsItem item tokens plain x)
  {close : String} (hclose : close ∈ brackets) (tail : List String)

include hitem hclose

/-- Items that are read back are items of a list. -/
theorem inList : List.Forall₂ (InList Before comma item plain [","] (close :: tail))
    (xs.map tokens) (xs.map plain) := by
  rw [List.forall₂_map_left_iff, List.forall₂_map_right_iff, List.forall₂_same]
  intro x hx
  have hfirst (items : List (List String)) := hitem x hx _
    (ends_remaining (ends_bracket hclose tail) items)
  exact ⟨hfirst, fun items => (token_reads "," _).bind fun _ _ => hfirst items⟩

/-- One item or more, before the bracket. -/
theorem separated1_reads (hxs : xs ≠ []) :
    Reads (separated1 comma item) (commas (xs.map tokens) ++ close :: tail) (close :: tail)
      fun ys => ys.map plain = xs.map plain := by
  have h := inList hitem hclose tail
  obtain ⟨x, xs, rfl⟩ := List.exists_cons_of_ne_nil hxs
  obtain ⟨hfirst, hrest⟩ := List.forall₂_cons.mp h
  rw [List.map_cons, commas_remaining]
  exact separated1_readsAt before_position (List.cons_ne_nil _ _)
    (comma_misses_bracket hclose tail) hfirst hrest

/-- Any number of items, before the bracket. -/
theorem separated_reads (hmiss : Misses item (close :: tail)) :
    Reads (separated comma item) (commas (xs.map tokens) ++ close :: tail) (close :: tail)
      fun ys => ys.map plain = xs.map plain := by
  have h := inList hitem hclose tail
  cases xs with
  | nil => exact (separated_readsAt_nil hmiss).weaken fun ys hys => by rw [hys]
  | cons x xs =>
      obtain ⟨hfirst, hrest⟩ := List.forall₂_cons.mp h
      rw [List.map_cons, commas_remaining]
      exact separated_readsAt before_position (List.cons_ne_nil _ _)
        (comma_misses_bracket hclose tail) hfirst hrest

end Lists

-- ============================================================== types

/-- A name is none of the reserved words. -/
theorem ne_of_isName {x w : String} (hx : isName x = true) (hw : reserved.contains w = true) :
    x ≠ w := by
  rintro rfl
  rw [(isName_cases hx).2] at hw
  cases hw

theorem keyword_misses_name {x w : String} (hx : isName x = true) (hw : reserved.contains w = true)
    (hword : isWord w = true) (ts : List String) : Misses (keyword w) (x :: ts) :=
  keyword_misses hword fun h => ne_of_isName hx hw (Option.some.inj h)

/-- A name begins with no other sign. -/
theorem first?_of_isName {x : String} (hx : isName x = true) (ts : List String) {d : Char}
    (hd : isNameStart d = false) : first? (x :: ts) ≠ some d := by
  obtain ⟨c, v, hc, hstart, -⟩ := isWord_cases (isName_cases hx).1
  intro h
  have hcd : c = d := by simpa [first?, hc] using h
  rw [hcd, hd] at hstart
  cases hstart

/-- The columns of a list without their marks. -/
theorem column_reads {type : Reading TypeExpr} {c : String × TypeExpr} (hc : isName c.1 = true)
    (htype : ReadsItem type TypeExpr.tokens TypeExpr.unmarked c.2) :
    ReadsItem (column type) (fun c => c.1 :: ":" :: c.2.tokens)
        (fun c => (c.1, c.2.unmarked)) c := by
  intro tail htail
  refine (ident_reads hc _).followedBy ((expect_reads ":" _).bind fun _ _ => ?_)
  refine (htype tail htail).bind fun t ht => ReadsAt.result ?_
  dsimp only
  rw [ht]

section Columns

variable {type : Reading TypeExpr} {cs : List (String × TypeExpr)} (hcs : writableColumns cs = true)
  (htype : ∀ c ∈ cs, ReadsItem type TypeExpr.tokens TypeExpr.unmarked c.2)
  {close : String} (hclose : close ∈ brackets) (tail : List String)

include hcs htype hclose

/-- Columns are read back up to the closing bracket. -/
theorem columns_reads :
    Reads (columns type) (commas (columnTokens cs) ++ close :: tail) (close :: tail)
      fun ds => unmarkedColumns ds = unmarkedColumns cs := by
  simp only [unmarkedColumns_eq, columnTokens_eq]
  exact separated_reads (fun c hc => column_reads (writableColumns_iff.mp hcs c hc).1 (htype c hc))
    hclose tail ((ident_misses_bracket hclose tail).bind _)

/-- Columns are read back where there must be one. -/
theorem columns1_reads (hne : cs ≠ []) :
    Reads (separated1 comma (column type)) (commas (columnTokens cs) ++ close :: tail)
      (close :: tail) fun ds => unmarkedColumns ds = unmarkedColumns cs := by
  simp only [unmarkedColumns_eq, columnTokens_eq]
  exact separated1_reads (fun c hc => column_reads (writableColumns_iff.mp hcs c hc).1 (htype c hc))
    hclose tail hne

end Columns

/-- The type of a column is no longer than the list of columns. -/
theorem length_le_columnTokens {c : String × TypeExpr} {cs : List (String × TypeExpr)}
    (hc : c ∈ cs) :
    c.2.tokens.length ≤ (commas (columnTokens cs)).length := by
  have hmem : (c.1 :: ":" :: c.2.tokens) ∈ columnTokens cs := by
    rw [columnTokens_eq]
    exact List.mem_map_of_mem hc
  have hle := length_le_commas hmem
  rw [List.length_cons, List.length_cons] at hle
  omega

/-- Types are read back, by induction on the depth they may have. -/
theorem typeWithin_reads {depth : Nat} {t : TypeExpr} (ht : t.isWritable = true)
    (hdepth : t.tokens.length ≤ depth) (tail : List String) :
    Reads (typeWithin depth) (t.tokens ++ tail) tail fun t' => t'.unmarked = t.unmarked := by
  induction depth generalizing t tail with
  | zero =>
      cases t with
      | named x mark => exact absurd hdepth (by simp [TypeExpr.tokens])
      | tuple cs => exact absurd hdepth (by simp [TypeExpr.tokens])
      | relation cs => exact absurd hdepth (by simp [TypeExpr.tokens])
  | succ depth ih =>
      -- the columns of a heading, from its brace to its brace
      have hheading {cs : List (String × TypeExpr)} (hcs : writableColumns cs = true)
          (hlength : (commas (columnTokens cs)).length ≤ depth)
          (f : List (String × TypeExpr) → TypeExpr)
          (hf : ∀ ds, unmarkedColumns ds = unmarkedColumns cs → (f ds).unmarked = (f cs).unmarked) :
          Reads (do
            expect "\x7b"
            let ds ← columns (typeWithin depth)
            close "\x7d"
            return f ds) ("\x7b" :: (commas (columnTokens cs) ++ "\x7d" :: tail)) tail
            fun t' => t'.unmarked = (f cs).unmarked := by
        have htype : ∀ c ∈ cs, ReadsItem (typeWithin depth) TypeExpr.tokens TypeExpr.unmarked c.2 :=
          fun c hc tail _ => ih (writableColumns_iff.mp hcs c hc).2
            (Nat.le_trans (length_le_columnTokens hc) hlength) tail
        refine (expect_reads _ _).bind fun _ _ => ?_
        refine (columns_reads hcs htype (by decide) tail).bind fun ds hds => ?_
        exact (close_reads _ _).bind fun _ _ => ReadsAt.result (hf ds hds)
      refine (mark_reads _).bind fun start _ => ?_
      cases t with
      | named x mark =>
          rw [TypeExpr.isWritable] at ht
          refine (keyword_misses_name ht (by decide) (by decide) _).found.followedBy ?_
          refine (keyword_misses_name ht (by decide) (by decide) _).found.followedBy ?_
          refine (ident_reads ht tail).required.followedBy (ReadsAt.result ?_)
          rfl
      | tuple cs =>
          rw [TypeExpr.isWritable] at ht
          simp only [TypeExpr.tokens, List.cons_append, List.append_assoc, List.nil_append,
            List.length_cons, List.length_append] at hdepth ⊢
          refine (keyword_reads "tup" _).found.followedBy ?_
          refine hheading ht (by omega) .tuple fun ds hds => ?_
          rw [TypeExpr.unmarked, TypeExpr.unmarked, hds]
      | relation cs =>
          rw [TypeExpr.isWritable] at ht
          simp only [TypeExpr.tokens, List.cons_append, List.append_assoc, List.nil_append,
            List.length_cons, List.length_append] at hdepth ⊢
          refine (keyword_misses (by decide) (by simp)).found.followedBy ?_
          refine (keyword_reads "rel" _).found.followedBy ?_
          refine hheading ht (by omega) .relation fun ds hds => ?_
          rw [TypeExpr.unmarked, TypeExpr.unmarked, hds]

/-- A type of any depth is read back. -/
theorem type_reads {t : TypeExpr} (ht : t.isWritable = true) (tail : List String) :
    Reads type (t.tokens ++ tail) tail fun t' => t'.unmarked = t.unmarked := by
  refine before_position.bounded fun n hn => typeWithin_reads ht ?_ tail
  rw [List.length_append] at hn
  omega

-- ======================================================= ordering keys

/-- An ordering key is read back. -/
theorem orderKey_reads {k : OrderKey} (hk : isName k.name = true) :
    ReadsItem orderKey OrderKey.tokens OrderKey.unmarked k := by
  intro tail _
  obtain ⟨x, descending, grouped, mark⟩ := k
  have hdescending : Reads (found (token "-"))
      ((if descending then ["-"] else []) ++ [x] ++ tail) (x :: tail) (· = descending) := by
    cases descending with
    | true => exact (token_reads "-" _).found
    | false => exact (token_misses rfl (first?_of_isName hk tail rfl)).found
  have hgrouped : Reads (found (token "%"))
      (OrderKey.tokens ⟨x, descending, grouped, mark⟩ ++ tail)
      ((if descending then ["-"] else []) ++ [x] ++ tail) (· = grouped) := by
    cases grouped with
    | true => exact (token_reads "%" _).found
    | false =>
        refine (token_misses rfl ?_).found
        cases descending with
        | true => exact (by decide : (some '-' : Option Char) ≠ some '%')
        | false => exact first?_of_isName hk tail rfl
  refine (mark_reads _).bind fun start _ => ?_
  exact hgrouped.followedBy (hdescending.followedBy
      ((name_reads hk tail).followedBy (ReadsAt.result rfl)))

/-- The keys of an ordering, between parentheses. -/
theorem orderKeys_reads {keys : List OrderKey} (hkeys : ∀ k ∈ keys, isName k.name = true)
    (hne : keys ≠ []) (tail : List String) :
    Reads (separated1 comma orderKey) (commas (keys.map OrderKey.tokens) ++ ")" :: tail)
      (")" :: tail) fun ks => ks.map OrderKey.unmarked = keys.map OrderKey.unmarked :=
  separated1_reads (fun k hk => orderKey_reads (hkeys k hk)) (by decide) tail hne

end Reading

end RelQuery
