/-
Reading primaries back: names, calls, folds, blocks, rows and tables.

Each construct is read back if its parts are (`IsRead`). What has to be
shown is that none of the alternatives tried before the right one takes
its first tokens, and that the readers of its lists stop where the list
ends. A row and an empty table both begin with two braces and a name;
the token after the name tells them apart (`columnAhead`).
-/
import RelQuery.Proofs.Grammar.Levels

namespace RelQuery

open Text

namespace Reading

section Expressions

variable {style : Style}

-- =========================================================== bindings

/-- A binding is read back if its value is. -/
theorem binding_reads {b : Binding} (hb : isName b.name = true) (hvalue : IsRead style b.value)
    {d : Nat} (hd : (b.value.tokens style).length < d) :
    ReadsItem (binding (nested d)) (Binding.tokens style) Binding.unmarked b := by
  intro tail htail
  refine (ident_reads hb _).followedBy ((expect_reads ":=" _).bind fun _ _ => ?_)
  refine (hvalue.expression.inner hd htail).bind fun x hx => ReadsAt.result ?_
  rw [Binding.unmarked, Binding.unmarked, hx]

/-- The value of a binding is shorter than the list of bindings. -/
theorem length_lt_bindingTokens {b : Binding} {bs : List Binding} (hb : b ∈ bs) :
    (b.value.tokens style).length < (commas (bindingTokens style bs)).length := by
  have hmem : Binding.tokens style b ∈ bindingTokens style bs := by
    rw [bindingTokens_eq]
    exact List.mem_map_of_mem hb
  have hle := length_le_commas hmem
  rw [Binding.tokens, List.length_cons, List.length_cons] at hle
  omega

/-- Bindings before their closing brace. -/
theorem bindings_reads {bs : List Binding} (hnames : ∀ b ∈ bs, isName b.name = true)
    (hvalues : ∀ b ∈ bs, IsRead style b.value) {d : Nat}
    (hd : (commas (bindingTokens style bs)).length ≤ d) (tail : List String) :
    Reads (bindings (nested d)) (commas (bindingTokens style bs) ++ "\x7d" :: tail) ("\x7d" :: tail)
      fun cs => unmarkedBindings cs = unmarkedBindings bs := by
  have hitem : ∀ b ∈ bs, ReadsItem (binding (nested d)) (Binding.tokens style) Binding.unmarked b :=
    fun b hb => binding_reads (hnames b hb) (hvalues b hb)
      (Nat.lt_of_lt_of_le (length_lt_bindingTokens hb) hd)
  simp only [unmarkedBindings_eq, bindingTokens_eq]
  exact separated_reads hitem (by decide) tail ((ident_misses_bracket (by decide) tail).bind _)

-- ========================================================== arguments

/-- Arguments are read back up to their closing bracket. -/
theorem arguments_reads {args : List Expr} (hargs : ∀ e ∈ args, IsRead style e) {d : Nat}
    (hd : (commas (argumentTokens style args)).length < d) (tail : List String) :
    Reads (arguments (nested d)) (commas (argumentTokens style args) ++ ")" :: tail) tail
      fun xs => unmarkedArguments xs = unmarkedArguments args := by
  have hitem : ∀ e ∈ args, ReadsItem (nested d).inner (Expr.tokens style) Expr.unmarked e := by
    intro e he tail htail
    refine (hargs e he).expression.inner (Nat.lt_of_le_of_lt (length_le_commas ?_) hd) htail
    rw [argumentTokens_eq]
    exact List.mem_map_of_mem he
  simp only [unmarkedArguments_eq, argumentTokens_eq]
  refine (ahead_reads_head _).bind fun text htext => ?_
  rw [htext]
  cases args with
  | nil => exact (token_reads ")" tail).bind fun _ _ => ReadsAt.result rfl
  | cons e args =>
      have hfirst : (first? (commas ((e :: args).map (Expr.tokens style)) ++ ")" :: tail)
          == some ')') = false := by
        rw [List.map_cons, commas_cons, List.append_assoc]
        simpa using (hargs e List.mem_cons_self).opens.noClose _
      rw [hfirst]
      refine (separated1_reads hitem (by decide) tail (List.cons_ne_nil _ _)).bind fun xs hxs => ?_
      exact (close_reads ")" tail).bind fun _ _ => ReadsAt.result hxs

-- ==================================================== words and literals

/-- A number is read back. -/
theorem number_isRead {mark : Nat} {value : Decimal} (hvalue : value.negative = false) :
    IsRead style (.number mark value) := by
  refine .ofPrimary rfl ?_ fun d tail hd htail => primary_number hvalue tail
  obtain ⟨c, w, heq, hc⟩ := Decimal.write_cons hvalue
  rw [tokens_number]
  refine opens_sign heq (isNameStart_of_isDigit hc) ?_ ?_ []
  · rintro rfl
    cases hc
  · rintro rfl
    cases hc

theorem text_isRead (mark : Nat) (value : String) : IsRead style (.text mark value) := by
  refine .ofPrimary rfl ?_ fun d tail hd htail => primary_text value tail
  exact opens_sign (quote_toList value) rfl (by decide) (by decide) []

/-- The current row is read back. -/
theorem currentRow_isRead (mark : Nat) : IsRead style (.currentRow mark) := by
  refine .ofPrimary rfl (opens_token rfl rfl _) fun d tail hd htail => ?_
  rw [Expr.tokens, List.singleton_append]
  refine (mark_reads _).bind fun start _ => (ahead_reads _).followedBy ?_
  rw [spaced_cons]
  exact (token_reads "@" tail).bind fun _ _ => ReadsAt.result rfl

/-- A name is none of the words before it. -/
theorem word_of_isName {x : String} (hx : isName x = true) {n : Nested} {start : Nat}
    {ts b : List String} {P : Expr → Prop}
    (h : Reads (do
      if ← found (token "(") then return .call start x (← arguments n)
      else return .name start x) ts b P) : Reads (word n start) (x :: ts) b P := by
  refine (keyword_misses_name hx (by decide) (by decide) _).found.followedBy ?_
  refine (keyword_misses_name hx (by decide) (by decide) _).found.followedBy ?_
  refine (keyword_misses_name hx (by decide) (by decide) _).found.followedBy ?_
  refine (keyword_misses_name hx (by decide) (by decide) _).found.followedBy ?_
  refine (ident_reads hx ts).optional.bind fun o ho => ?_
  obtain ⟨y, rfl, rfl⟩ := ho
  exact h

/-- A name is read back, for no bracket follows it. -/
theorem name_isRead {mark : Nat} {x : String} (hx : isName x = true) :
    IsRead style (.name mark x) := by
  refine .ofPrimary rfl (opens_name hx (by simp [first?])) fun d tail hd htail => ?_
  refine primary_word (isName_cases hx).1 fun start => word_of_isName hx ?_
  exact (token_misses rfl htail.noCall).found.followedBy (ReadsAt.result rfl)

/-- A call is read back if its arguments are. -/
theorem call_isRead {mark : Nat} {f : String} {args : List Expr} (hf : isName f = true)
    (hargs : ∀ e ∈ args, IsRead style e) : IsRead style (.call mark f args) := by
  refine .ofPrimary rfl (opens_name hf (by simp [first?])) fun d tail hd htail => ?_
  simp only [Expr.tokens, List.cons_append, List.append_assoc, List.nil_append, List.length_cons,
    List.length_append] at hd ⊢
  refine primary_word (isName_cases hf).1 fun start => word_of_isName hf ?_
  refine (token_reads "(" _).found.followedBy ?_
  refine (arguments_reads hargs (by omega) tail).bind fun xs hxs => ReadsAt.result ?_
  rw [Like, Expr.unmarked, Expr.unmarked, hxs]

/-- A truth value is read back: its word is not a name. -/
theorem bool_isRead (mark : Nat) (value : Bool) : IsRead style (.bool mark value) := by
  cases value with
  | true =>
      refine .ofPrimary rfl (opens_token rfl rfl _) fun d tail hd htail => ?_
      refine primary_word rfl fun start => ?_
      exact (keyword_reads "true" tail).found.followedBy (ReadsAt.result rfl)
  | false =>
      refine .ofPrimary rfl (opens_token rfl rfl _) fun d tail hd htail => ?_
      refine primary_word rfl fun start => ?_
      refine (keyword_misses (by decide) (by simp)).found.followedBy ?_
      exact (keyword_reads "false" tail).found.followedBy (ReadsAt.result rfl)

/-- A fold is read back if its argument is. -/
theorem fold_isRead {mark : Nat} {op : String} {arg : Expr} (hop : isInfix op = true)
    (harg : IsRead style arg) : IsRead style (.fold mark op arg) := by
  refine .ofPrimary rfl (opens_token rfl rfl _) fun d tail hd htail => ?_
  simp only [Expr.tokens, List.cons_append, List.append_assoc, List.nil_append, List.length_cons,
    List.length_append] at hd ⊢
  refine primary_word rfl fun start => ?_
  refine (keyword_misses (by decide) (by simp)).found.followedBy ?_
  refine (keyword_misses (by decide) (by simp)).found.followedBy ?_
  refine (keyword_reads "fold" _).found.followedBy ?_
  refine (expect_reads "(" _).bind fun _ _ => ?_
  refine (infixOperator_reads hop _).required.followedBy ((expect_reads "," _).bind fun _ _ => ?_)
  refine (harg.expression.inner (by omega) (ends_cons (by decide) tail)).bind fun x hx => ?_
  refine (close_reads ")" tail).bind fun _ _ => ReadsAt.result ?_
  rw [Like, Expr.unmarked, Expr.unmarked, hx]

-- ============================================================= blocks

theorem boundName_reads {x : String} (hx : isName x = true) (ts : List String) :
    Reads boundName (x :: ":=" :: ts) ts (· = x) :=
  (ident_reads hx _).followedBy ((token_reads ":=" ts).bind fun _ _ => ReadsAt.result rfl)

/-- The bindings of a block are read one by one, until no name with a sign
follows. -/
theorem blockBindings_reads {bs : List Binding} (hnames : ∀ b ∈ bs, isName b.name = true)
    (hvalues : ∀ b ∈ bs, IsRead style b.value) {d fuel : Nat}
    (hd : (localTokens style bs).length < d) (hfuel : bs.length < fuel) {tail : List String}
    (htail : Misses boundName tail) :
    Reads (blockBindings (nested d) fuel) (localTokens style bs ++ tail) tail
      fun cs => unmarkedBindings cs = unmarkedBindings bs := by
  induction bs generalizing fuel with
  | nil =>
      obtain ⟨fuel, rfl⟩ := Nat.exists_eq_succ_of_ne_zero (Nat.ne_zero_of_lt hfuel)
      exact htail.optional.followedBy (ReadsAt.result rfl)
  | cons b bs ih =>
      obtain ⟨x, value⟩ := b
      obtain ⟨fuel, rfl⟩ := Nat.exists_eq_succ_of_ne_zero (Nat.ne_zero_of_lt hfuel)
      simp only [localTokens, List.cons_append, List.append_assoc, List.length_cons,
        List.length_append] at hd ⊢
      refine (boundName_reads (hnames _ List.mem_cons_self) _).optional.bind fun o ho => ?_
      obtain ⟨y, rfl, rfl⟩ := ho
      have hvalue : IsRead style value := hvalues _ List.mem_cons_self
      refine (hvalue.expression.inner (by omega) (ends_cons (by decide) _)).bind fun v hv => ?_
      refine (expect_reads ";" _).bind fun _ _ => ?_
      refine (ih (fun b hb => hnames b (List.mem_cons_of_mem _ hb))
        (fun b hb => hvalues b (List.mem_cons_of_mem _ hb)) (by omega)
        (Nat.lt_of_succ_lt_succ hfuel)).bind fun cs hcs => ReadsAt.result ?_
      rw [unmarkedBindings, unmarkedBindings, hv, hcs]

/-- Every binding takes at least one token. -/
theorem length_le_localTokens (style : Style) (bs : List Binding) :
    bs.length ≤ (localTokens style bs).length := by
  induction bs with
  | nil => exact Nat.zero_le _
  | cons b bs ih =>
      obtain ⟨x, value⟩ := b
      simp only [localTokens, List.cons_append, List.length_cons, List.length_append]
      omega

/-- A block is read back if its bindings and its body are. -/
theorem block_isRead {mark : Nat} {bs : List Binding} {body : Expr}
    (hnames : ∀ b ∈ bs, isName b.name = true) (hvalues : ∀ b ∈ bs, IsRead style b.value)
    (hbody : IsRead style body) : IsRead style (.block mark bs body) := by
  refine .ofPrimary rfl (opens_token rfl rfl _) fun d tail hd htail => ?_
  simp only [Expr.tokens, List.cons_append, List.append_assoc, List.nil_append, List.length_cons,
    List.length_append] at hd ⊢
  refine primary_word rfl fun start => ?_
  refine (keyword_misses (by decide) (by simp)).found.followedBy ?_
  refine (keyword_misses (by decide) (by simp)).found.followedBy ?_
  refine (keyword_misses (by decide) (by simp)).found.followedBy ?_
  refine (keyword_reads "do" _).found.followedBy ?_
  refine (expect_reads "\x7b" _).bind fun _ _ => ?_
  have hlocals : Reads (bounded (blockBindings (nested d)))
      (localTokens style bs ++ (body.tokens style ++ "\x7d" :: tail))
      (body.tokens style ++ "\x7d" :: tail)
      fun cs => unmarkedBindings cs = unmarkedBindings bs := by
    refine before_position.bounded fun fuel hfuel => ?_
    have hle := length_le_localTokens style bs
    simp only [List.length_append, List.length_cons] at hfuel
    exact blockBindings_reads hnames hvalues (by omega) (by omega)
      (hbody.opens.boundName_misses (by simp [first?]))
  refine hlocals.bind fun cs hcs => ?_
  refine (hbody.expression.inner (by omega) (ends_cons (by decide) tail)).bind fun x hx => ?_
  refine (close_reads "\x7d" tail).bind fun _ _ => ReadsAt.result ?_
  rw [Like, Expr.unmarked, Expr.unmarked, hcs, hx]

-- ============================================================= braces

/-- A row is read back if its values are. -/
theorem row_isRead {mark : Nat} {bs : List Binding} (hnames : ∀ b ∈ bs, isName b.name = true)
    (hvalues : ∀ b ∈ bs, IsRead style b.value) : IsRead style (.row mark bs) := by
  refine .ofPrimary rfl (opens_token rfl rfl _) fun d tail hd htail => ?_
  simp only [Expr.tokens, List.cons_append, List.append_assoc, List.nil_append, List.length_cons,
    List.length_append] at hd ⊢
  refine primary_braces fun start => ?_
  refine (token_reads "\x7b" _).bind fun _ _ => (ahead_reads_head _).bind fun text htext => ?_
  rw [htext]
  cases bs with
  | nil => exact (token_reads "\x7d" tail).bind fun _ _ => ReadsAt.result rfl
  | cons b bs =>
      have hfirst {c : Char} (hc : isNameStart c = false) :
          first? (commas (bindingTokens style (b :: bs)) ++ "\x7d" :: tail) ≠ some c := by
        obtain ⟨x, value⟩ := b
        rw [bindingTokens, commas_cons]
        exact first?_of_isName (hnames _ List.mem_cons_self) _ hc
      split
      · exact absurd ‹_› (hfirst rfl)
      · exact absurd ‹_› (hfirst rfl)
      · refine (bindings_reads hnames hvalues (by omega) tail).bind fun cs hcs => ?_
        refine (close_reads "\x7d" tail).bind fun _ _ => ReadsAt.result ?_
        rw [Like, Expr.unmarked, Expr.unmarked, hcs]

/-- A column of a heading, not a binding, stands ahead. -/
theorem columnAhead_column {x : String} (hx : isName x = true) (ts : List String) :
    Reads columnAhead (x :: ":" :: ts) (x :: ":" :: ts) (· = true) := by
  intro c hc
  obtain ⟨y, c', hrun, -, hc'⟩ := ident_reads hx (":" :: ts) c hc
  refine ⟨true, c, ?_, rfl, hc⟩
  unfold columnAhead
  rw [hrun]
  dsimp only
  rw [hc'.skip_rest, spaced_cons]
  rcases following_cases ts with h | ⟨rest, h⟩
  · rw [h]
    rfl
  · rw [h]
    rfl

/-- A binding is not taken for a column, since its sign is another one. -/
theorem columnAhead_binding {x : String} (hx : isName x = true) (ts : List String) :
    Reads columnAhead (x :: ":=" :: ts) (x :: ":=" :: ts) (· = false) := by
  intro c hc
  obtain ⟨y, c', hrun, -, hc'⟩ := ident_reads hx (":=" :: ts) c hc
  refine ⟨false, c, ?_, rfl, hc⟩
  unfold columnAhead
  rw [hrun]
  dsimp only
  rw [hc'.skip_rest, spaced_cons]
  rfl

/-- No column stands ahead before the bindings of a row. -/
theorem columnAhead_bindings {bs : List Binding} (hnames : ∀ b ∈ bs, isName b.name = true)
    (tail : List String) :
    Reads columnAhead (commas (bindingTokens style bs) ++ "\x7d" :: tail)
      (commas (bindingTokens style bs) ++ "\x7d" :: tail) (· = false) := by
  cases bs with
  | nil =>
      intro c hc
      have hbrace : "\x7d" ∈ brackets := by decide
      obtain ⟨m, hrun, -⟩ := ident_misses_bracket hbrace tail c hc
      refine ⟨false, c, ?_, rfl, hc⟩
      unfold columnAhead
      rw [hrun]
  | cons b bs =>
      obtain ⟨x, value⟩ := b
      rw [bindingTokens, commas_cons]
      exact columnAhead_binding (hnames _ List.mem_cons_self) _

/-- The text of a row is read as its bindings, whatever rows follow. -/
structure RowInList {τ : Type} (At : Cursor → List τ → Prop) (n : Nested) (sep tail text : List τ)
    (bs : List Binding) : Prop where
  comma : ∀ texts, ReadsAt At comma (sep ++ (text ++ remaining sep texts tail))
    (text ++ remaining sep texts tail) fun _ => True
  row : ∀ texts, ∃ inside closing,
      ReadsAt At (expect "\x7b") (text ++ remaining sep texts tail) inside
      (fun _ => True) ∧
    ReadsAt At (bindings n) inside closing (unmarkedBindings · = bs) ∧
    ReadsAt At (close "\x7d") closing (remaining sep texts tail) fun _ => True

/-- The rows of a table after the first one. -/
theorem rowsRest_readsAt {τ : Type} {At : Cursor → List τ → Prop} {n : Nested} {sep tail : List τ}
    {texts : List (List τ)} {rows : List (List Binding)} (hAt : Position At) (hsep : sep ≠ [])
    (hclose : MissesAt At comma tail)
    (h : List.Forall₂ (RowInList At n sep tail) texts rows) :
    ReadsAt At (bounded (rowsRest n)) (remaining sep texts tail) tail (unmarkedRows · = rows) := by
  refine hAt.bounded fun fuel hfuel => ?_
  have hrounds := Nat.le_trans (length_le_remaining hsep texts tail) hfuel
  clear hfuel
  induction h generalizing fuel with
  | nil =>
      cases fuel with
      | zero => exact .result rfl
      | succ fuel => exact hclose.found.followedBy (.result rfl)
  | @cons text row texts rows hfirst hrest ih =>
      obtain ⟨fuel, rfl⟩ := Nat.exists_eq_succ_of_ne_zero (Nat.ne_zero_of_lt hrounds)
      obtain ⟨inside, closing, hopens, hrow, hcloses⟩ := hfirst.row texts
      rw [remaining_cons]
      refine (hfirst.comma texts).found.followedBy (hopens.bind fun _ _ => ?_)
      refine hrow.bind fun r hr => hcloses.bind fun _ _ => ?_
      refine (ih fuel (Nat.le_of_succ_le_succ hrounds)).bind fun rs hrs => .result ?_
      rw [unmarkedRows, hr, hrs]

/-- The rows of a table are read one by one up to the brace that closes it. -/
theorem rowsRest_reads {rows : List (List Binding)}
    (hnames : ∀ row ∈ rows, ∀ b ∈ row, isName b.name = true)
    (hvalues : ∀ row ∈ rows, ∀ b ∈ row, IsRead style b.value) {d : Nat}
    (hd : ∀ row ∈ rows, (commas (bindingTokens style row)).length ≤ d) (tail : List String) :
    Reads (bounded (rowsRest (nested d)))
      (remaining [","] (rowTokens style rows) ("\x7d" :: tail)) ("\x7d" :: tail)
      fun rs => unmarkedRows rs = unmarkedRows rows := by
  refine rowsRest_readsAt before_position (List.cons_ne_nil _ _)
    (comma_misses_bracket (by decide) tail) ?_
  rw [rowTokens_eq, unmarkedRows_eq, List.forall₂_map_left_iff, List.forall₂_map_right_iff,
    List.forall₂_same]
  intro row hrow
  refine ⟨fun texts => token_reads "," _, fun texts => ?_⟩
  rw [← bindingTokens_eq, List.cons_append, List.cons_append, List.append_assoc]
  have hbindings := bindings_reads (hnames row hrow) (hvalues row hrow) (hd row hrow)
    (remaining [","] texts ("\x7d" :: tail))
  exact ⟨_, _, expect_reads "\x7b" _, hbindings, close_reads "\x7d" _⟩

/-- A row and its braces are no longer than the list of rows. -/
theorem length_le_rowTokens (style : Style) {row : List Binding} {rows : List (List Binding)}
    (hrow : row ∈ rows) :
    (commas (bindingTokens style row)).length + 2 ≤ (commas (rowTokens style rows)).length := by
  have hmem : "\x7b" :: commas (bindingTokens style row) ++ ["\x7d"] ∈ rowTokens style rows := by
    rw [rowTokens_eq, bindingTokens_eq]
    exact List.mem_map.mpr ⟨row, hrow, rfl⟩
  have hle := length_le_commas hmem
  simp only [List.length_append, List.length_cons, List.length_nil] at hle
  omega

/-- A table is read back if the values of its rows are. -/
theorem table_isRead {mark : Nat} {rows : List (List Binding)} (hne : rows ≠ [])
    (hnames : ∀ row ∈ rows, ∀ b ∈ row, isName b.name = true)
    (hvalues : ∀ row ∈ rows, ∀ b ∈ row, IsRead style b.value) :
    IsRead style (.table mark rows) := by
  refine .ofPrimary rfl (opens_token rfl rfl _) fun d tail hd htail => ?_
  simp only [Expr.tokens, List.cons_append, List.append_assoc, List.nil_append, List.length_cons,
    List.length_append] at hd ⊢
  have hrows : ∀ row ∈ rows, (commas (bindingTokens style row)).length ≤ d := by
    intro row hrow
    have hle := length_le_rowTokens style hrow
    omega
  obtain ⟨row, rows, rfl⟩ := List.exists_cons_of_ne_nil hne
  refine primary_braces fun start => ?_
  refine (token_reads "\x7b" _).bind fun _ _ => (ahead_reads_head _).bind fun text htext => ?_
  rw [htext, rowTokens, commas_cons]
  simp only [List.cons_append, List.append_assoc, List.nil_append]
  refine (token_reads "\x7b" _).bind fun _ _ => ?_
  refine (columnAhead_bindings (hnames row List.mem_cons_self) _).followedBy ?_
  refine (bindings_reads (hnames row List.mem_cons_self) (hvalues row List.mem_cons_self)
    (hrows row List.mem_cons_self) _).bind fun r hr => ?_
  refine (close_reads "\x7d" _).bind fun _ _ => ?_
  have hrest := rowsRest_reads (fun r hr => hnames r (List.mem_cons_of_mem _ hr))
    (fun r hr => hvalues r (List.mem_cons_of_mem _ hr))
    (fun r hr => hrows r (List.mem_cons_of_mem _ hr)) tail
  refine hrest.bind fun rs hrs => ?_
  refine (close_reads "\x7d" tail).bind fun _ _ => ReadsAt.result ?_
  rw [Like, Expr.unmarked, Expr.unmarked, unmarkedRows, unmarkedRows, hr, hrs]

/-- A table without rows is read back by its columns. -/
theorem emptyTable_isRead {mark : Nat} {cs : List (String × TypeExpr)} (hne : cs ≠ [])
    (hcs : writableColumns cs = true) : IsRead style (.emptyTable mark cs) := by
  refine .ofPrimary rfl (opens_token rfl rfl _) fun d tail hd htail => ?_
  simp only [Expr.tokens, List.cons_append, List.append_assoc, List.nil_append]
  refine primary_braces fun start => ?_
  refine (token_reads "\x7b" _).bind fun _ _ => (ahead_reads_head _).bind fun text htext => ?_
  rw [htext]
  refine (token_reads "\x7b" _).bind fun _ _ => ?_
  have hahead : Reads columnAhead (commas (columnTokens cs) ++ "\x7d" :: "\x7d" :: tail)
      (commas (columnTokens cs) ++ "\x7d" :: "\x7d" :: tail) (· = true) := by
    obtain ⟨c, cs, rfl⟩ := List.exists_cons_of_ne_nil hne
    rw [columnTokens_eq, List.map_cons, commas_cons]
    exact columnAhead_column (writableColumns_iff.mp hcs c List.mem_cons_self).1 _
  refine hahead.followedBy ?_
  refine (columns1_reads hcs (fun c hc tail _ =>
    type_reads (writableColumns_iff.mp hcs c hc).2 tail) (by decide) _ hne).bind fun ds hds => ?_
  refine (close_reads "\x7d" _).bind fun _ _ => (close_reads "\x7d" tail).bind fun _ _ => ?_
  refine ReadsAt.result ?_
  rw [Like, Expr.unmarked, Expr.unmarked, hds]

end Expressions

end Reading

end RelQuery
