/-
Every mark that is read stands at its token.

A construct takes its mark where its first token begins, and then looks
for that token. Where it looks for several in turn, an alternative that
is not there leaves the cursor where it was, so the mark stays good until
one of them is found. From there on the mark is known to stand at its
token, and only the parts are left to be read: each reader below is given
that fact for the mark it is handed.

What an operand hands on besides its tree is where it begins
(`BeginsIn`), because an infix chain takes the mark of its first operand.
Selections do not change that, and parentheses leave no mark.
-/
import RelQuery.Grammar.Sentence
import RelQuery.Proofs.Grammar.Cursors

namespace RelQuery

open Text (TokenAt IsBoundary)

namespace Reading

variable {text : List Char} {c : Cursor}

-- ============================================================== types

/-- A column carries no mark of its own, so it stands as its type
does. -/
theorem column_gives {type : Reading TypeExpr} (htype : Gives text type (TypeExpr.Opens text)) :
    Gives text (column type) fun column => column.2.Opens text := by
  intro c
  refine (ident_stays c).bind fun name c₁ _ => ?_
  refine (expect_stays ":" c₁).bind fun _ c₂ _ => ?_
  refine (htype c₂).bind fun t _ ht => ?_
  exact .result ht

/-- Columns between commas stand one by one. -/
theorem columns_gives {type : Reading TypeExpr} (htype : Gives text type (TypeExpr.Opens text)) :
    Gives text (columns type) (columnsOpen text) := by
  intro c
  have hcolumns := separated_gives comma_stays (column_gives htype) c
  refine hcolumns.mono fun cs _ hcs => ?_
  rw [columnsOpen_iff]
  exact hcs

/-- The words for a tuple and a relation are tried at the mark before a
name is. The columns of either are types one level down. -/
theorem typeWithin_gives (depth : Nat) :
    Gives text (typeWithin depth) (TypeExpr.Opens text) := by
  induction depth with
  | zero => exact fun _ => .missing
  | succ depth ih =>
      -- both words are followed by columns in braces
      have hcolumns (f : List (String × TypeExpr) → TypeExpr)
          (hf : ∀ cs, columnsOpen text cs → (f cs).Opens text) : Gives text (do
            expect "\x7b"
            let cs ← columns (typeWithin depth)
            close "\x7d"
            return f cs) (TypeExpr.Opens text) := by
        intro c
        refine (expect_stays "\x7b" c).bind fun _ c₁ _ => ?_
        refine (columns_gives ih c₁).bind fun cs c₂ hcs => ?_
        refine (close_stays "\x7d" c₂).bind fun _ _ _ => ?_
        exact .result (hf cs hcs)
      -- a word that is not found leaves the cursor where it was
      refine fun c => .mark_bind ?_
      have hs := c.skip_skip
      refine (found_keyword hs "tup" nofun).bind fun isTuple c' hseen => ?_
      cases isTuple with
      | true => exact hcolumns .tuple (fun cs hcs => by rwa [TypeExpr.Opens]) c'
      | false =>
          obtain rfl : c' = c.skip := hseen
          refine (found_keyword hs "rel" nofun).bind fun isRelation c' hseen => ?_
          cases isRelation with
          | true => exact hcolumns .relation (fun cs hcs => by rwa [TypeExpr.Opens]) c'
          | false =>
              obtain rfl : c' = c.skip := hseen
              refine (ident_from hs).required.bind fun x _ hx => .result ?_
              rwa [TypeExpr.Opens]

theorem type_gives : Gives text type (TypeExpr.Opens text) := by
  intro c
  exact .bounded fun depth => typeWithin_gives depth c

-- ================================================= readers of what nests

/-- An expression whose marks stand at their tokens. -/
abbrev ExprIn (text : List Char) (e : Expr) : Prop := e.Everywhere (Expr.Opens text)

/-- Such an expression, and where it begins. -/
structure BeginsIn (text : List Char) (offset : Nat) (e : Expr) : Prop where
  opens : ExprIn text e
  begins : e.BeginsAt text offset

/-- The readers of what is nested give such expressions. -/
structure Nested.Opens (text : List Char) (nested : Nested) : Prop where
  expression : Gives text nested.expression (ExprIn text)
  operand : Gives text nested.operand (ExprIn text)

section Nested

variable {nested : Nested} {start : Nat}

/-- A nested expression that is required. -/
theorem Nested.Opens.inner (h : nested.Opens text) : Gives text nested.inner (ExprIn text) :=
  h.expression.required

/-- An expression that begins with its own token. -/
theorem BeginsIn.ofMark {e : Expr} (hmark : e.lead = start) (h : e.Opens text)
    (hparts : ∀ part ∈ e.parts, ExprIn text part) : BeginsIn text start e :=
  ⟨Expr.everywhere_iff.mpr ⟨h, hparts⟩, .inr hmark.symm⟩

/-- An expression that begins with its own token and has no parts. -/
theorem BeginsIn.leaf {e : Expr} (hmark : e.lead = start) (h : e.Opens text)
    (hparts : e.parts = []) : BeginsIn text start e := by
  refine .ofMark hmark h ?_
  rw [hparts]
  exact List.forall_mem_nil _

/-- Neither does a binding carry a mark: it stands as its value does. -/
theorem binding_gives (h : nested.Opens text) :
    Gives text (binding nested) fun b => ExprIn text b.value := by
  intro c
  refine (ident_stays c).bind fun name c₁ _ => ?_
  refine (expect_stays ":=" c₁).bind fun _ c₂ _ => ?_
  refine (h.inner c₂).bind fun value _ hvalue => ?_
  exact .result hvalue

theorem bindings_gives (h : nested.Opens text) :
    Gives text (bindings nested) fun bs => ∀ b ∈ bs, ExprIn text b.value :=
  separated_gives comma_stays (binding_gives h)

-- ======================================================== field lists

/-- A field list whose marks stand at their tokens. -/
structure ListIn (text : List Char) (list : FieldList) : Prop where
  order : ∀ key ∈ list.order, key.Opens text
  entries : ∀ entry ∈ list.entries, entry.Opens text
  values : ∀ e ∈ list.entries.filterMap FieldEntry.value?, ExprIn text e

/-- One more field. -/
theorem ListIn.snoc {list : FieldList} (h : ListIn text list) {entry : FieldEntry}
    (hentry : entry.Opens text) (hvalue : ∀ e ∈ entry.value?, ExprIn text e) :
    ListIn text { list with entries := list.entries ++ [entry] } where
  order := h.order
  entries := List.forall_mem_append.mpr ⟨h.entries, List.forall_mem_singleton.mpr hentry⟩
  values := by
    rw [List.filterMap_append, List.forall_mem_append]
    refine ⟨h.values, fun e he => ?_⟩
    obtain ⟨other, hother, he⟩ := List.mem_filterMap.mp he
    cases List.mem_singleton.mp hother
    exact hvalue e he

/-- A key is marked at the first of its signs, or at its name. -/
theorem orderKey_gives : Gives text orderKey (OrderKey.Opens text) := by
  refine fun c => .mark_bind ?_
  have hs := c.skip_skip
  refine (found_token hs "%" nofun).bind fun grouped c' hgrouped => ?_
  cases grouped with
  | true =>
      refine ((token_stays "-").found c').bind fun descending c₁ _ => ?_
      refine (name_stays c₁).bind fun x _ _ => ?_
      exact .result hgrouped
  | false =>
      obtain rfl : c' = c.skip := hgrouped
      refine (found_token hs "-" nofun).bind fun descending c' hdescending => ?_
      cases descending with
      | true => exact (name_stays c').bind fun x _ _ => .result hdescending
      | false =>
          obtain rfl : c' = c.skip := hdescending
          exact (name_from hs).bind fun x _ hx => .result hx

/-- An entry of a list is an ordering, marked at its sign, or a field,
marked at its name. Whichever it is, it is added to what is there. -/
theorem fieldEntry_gives (h : nested.Opens text) {list : FieldList} (hlist : ListIn text list) :
    Gives text (fieldEntry nested list) (ListIn text) := by
  refine fun c => .mark_bind ?_
  have hs := c.skip_skip
  refine (found_token hs "$" nofun).bind fun isOrder c' hseen => ?_
  cases isOrder with
  | true =>
      refine (expect_stays "(" c').bind fun _ _ _ => ?_
      refine (separated1_gives comma_stays orderKey_gives _).bind fun keys _ hkeys => ?_
      refine (close_stays ")" _).bind fun _ _ _ => .result ?_
      exact ⟨List.forall_mem_append.mpr ⟨hlist.order, hkeys⟩, hlist.entries, hlist.values⟩
  | false =>
      obtain rfl : c' = c.skip := hseen
      refine (name_from hs).bind fun field c' hfield => ?_
      refine ((token_stays ":=").found c').bind fun computed c'' _ => ?_
      cases computed with
      | true =>
          refine (h.inner c'').bind fun value _ hvalue => .result (hlist.snoc hfield ?_)
          rintro _ ⟨⟩
          exact hvalue
      | false => exact .result (hlist.snoc hfield nofun)

/-- The list that is read so far is the invariant of the loop. -/
theorem fieldEntries_gives (h : nested.Opens text) (fuel : Nat) {list : FieldList}
    (hlist : ListIn text list) : Gives text (fieldEntries nested fuel list) (ListIn text) := by
  induction fuel generalizing list with
  | zero => exact fun _ => .result hlist
  | succ fuel ih =>
      refine fun c => (fieldEntry_gives h hlist c).bind fun list c' hlist => ?_
      refine (comma_stays.found c').bind fun more c'' _ => ?_
      cases more with
      | true => exact ih hlist c''
      | false => exact .result hlist

/-- A list begins with a star, a word or neither; the entries that follow
are read alike. -/
theorem fieldList_gives (h : nested.Opens text) :
    Gives text (fieldList nested) (ListIn text) := by
  have hempty (allBut : Bool) : ListIn text ⟨allBut, [], []⟩ :=
    ⟨List.forall_mem_nil _, List.forall_mem_nil _, List.forall_mem_nil _⟩
  have hlist (allBut : Bool) : Gives text (do
      let list : FieldList := ⟨allBut, [], []⟩
      if (← ahead).head? == some '\x7d' then return list
      else bounded fun fuel => fieldEntries nested fuel list) (ListIn text) := by
    refine fun c => .ahead_bind ?_
    split
    · exact .result (hempty allBut)
    · exact .bounded fun fuel => fieldEntries_gives h fuel (hempty allBut) _
  have hrest (allBut : Bool) : Gives text (do
      if allBut then
        let _ ← found comma
      let list : FieldList := ⟨allBut, [], []⟩
      if (← ahead).head? == some '\x7d' then return list
      else bounded fun fuel => fieldEntries nested fuel list) (ListIn text) := by
    cases allBut with
    | true => exact fun c => (comma_stays.found c).bind fun _ _ _ => hlist _ _
    | false => exact hlist _
  refine fun c => ((token_stays "*").found c).bind fun star c' _ => ?_
  cases star with
  | true => exact hrest true c'
  | false => exact ((keyword_stays "allbut").found c').bind fun allBut c'' _ => hrest allBut c''

-- ========================================================== primaries

/-- Looking for a column leaves the cursor where it is. -/
theorem columnAhead_stays : Stays text columnAhead := by
  intro c hc
  unfold columnAhead
  split
  · exact ⟨hc, trivial⟩
  · exact ⟨hc, trivial⟩

/-- The rows of a table after the first one. -/
theorem rowsRest_gives (h : nested.Opens text) (fuel : Nat) :
    Gives text (rowsRest nested fuel) fun rows => ∀ row ∈ rows, ∀ b ∈ row, ExprIn text b.value := by
  induction fuel with
  | zero => exact fun _ => .result (List.forall_mem_nil _)
  | succ fuel ih =>
      refine fun c => (comma_stays.found c).bind fun more c' _ => ?_
      cases more with
      | true =>
          refine (expect_stays "\x7b" c').bind fun _ _ _ => ?_
          refine (bindings_gives h _).bind fun row _ hrow => ?_
          refine (close_stays "\x7d" _).bind fun _ c₁ _ => ?_
          refine (ih c₁).bind fun rows _ hrows => ?_
          exact .result (List.forall_mem_cons.mpr ⟨hrow, hrows⟩)
      | false => exact .result (List.forall_mem_nil _)

/-- A row, a table and an empty table all take the mark of their first
brace. -/
theorem braces_gives (h : nested.Opens text) (hstart : TokenAt text start ['\x7b']) :
    Gives text (braces nested start) (BeginsIn text start) := by
  refine fun c => (token_stays "\x7b" c).bind fun _ _ _ => .ahead_bind ?_
  split
  · -- a row without fields
    exact (token_stays "\x7d" _).bind fun _ _ _ => .result (.leaf rfl hstart rfl)
  · refine (token_stays "\x7b" _).bind fun _ _ _ => ?_
    refine (columnAhead_stays _).bind fun isColumn c' _ => ?_
    cases isColumn with
    | true =>
        have hcolumn : Gives text (column type) fun column => column.2.Opens text :=
          column_gives type_gives
        refine (separated1_gives comma_stays hcolumn c').bind fun cs c₁ hcs => ?_
        refine (close_stays "\x7d" c₁).bind fun _ c₂ _ => ?_
        refine (close_stays "\x7d" c₂).bind fun _ _ _ => ?_
        exact .result (.leaf rfl ⟨hstart, columnsOpen_iff.mpr hcs⟩ rfl)
    | false =>
        refine (bindings_gives h c').bind fun first _ hfirst => ?_
        refine (close_stays "\x7d" _).bind fun _ _ _ => ?_
        refine (From.bounded fun fuel => rowsRest_gives h fuel _).bind fun rest _ hrest => ?_
        refine (close_stays "\x7d" _).bind fun _ _ _ => .result (.ofMark rfl hstart ?_)
        -- the parts of a table are the values of all its rows
        refine List.forall_mem_map.mpr fun b hb => ?_
        obtain ⟨row, hrow, hb⟩ := List.mem_flatten.mp hb
        exact List.forall_mem_cons.mpr ⟨hfirst, hrest⟩ row hrow b hb
  · refine (bindings_gives h _).bind fun bs c₁ hbs => ?_
    refine (close_stays "\x7d" c₁).bind fun _ _ _ => ?_
    exact .result (.ofMark rfl hstart (List.forall_mem_map.mpr hbs))

/-- The arguments of a call, up to the parenthesis behind them. -/
theorem arguments_gives (h : nested.Opens text) :
    Gives text (arguments nested) fun args => ∀ e ∈ args, ExprIn text e := by
  refine fun c => .ahead_bind ?_
  split
  · exact (token_stays ")" _).bind fun _ _ _ => .result (List.forall_mem_nil _)
  · refine (separated1_gives comma_stays h.inner _).bind fun args c₁ hargs => ?_
    refine (close_stays ")" c₁).bind fun _ _ _ => ?_
    exact .result hargs

/-- A name with the sign of assignment after it. -/
theorem boundName_from (hs : c.skip = c) :
    From text c boundName fun x _ => TokenAt text c.offset x.toList := by
  refine (ident_from hs).bind fun x c₁ hx => ?_
  refine (token_stays ":=" c₁).bind fun _ _ _ => ?_
  exact .result hx

theorem boundName_stays : Stays text boundName := by
  intro c
  refine (ident_stays c).bind fun x c₁ _ => ?_
  refine (token_stays ":=" c₁).bind fun _ _ _ => ?_
  exact .result trivial

/-- The bindings of a block end before what is not a name with the sign
of assignment. -/
theorem blockBindings_gives (h : nested.Opens text) (fuel : Nat) :
    Gives text (blockBindings nested fuel) fun bs => ∀ b ∈ bs, ExprIn text b.value := by
  induction fuel with
  | zero => exact fun _ => .result (List.forall_mem_nil _)
  | succ fuel ih =>
      refine fun c => (boundName_stays c).optional.bind fun o c' _ => ?_
      cases o with
      | none => exact .result (List.forall_mem_nil _)
      | some x =>
          refine (h.inner c').bind fun value c₁ hvalue => ?_
          refine (expect_stays ";" c₁).bind fun _ c₂ _ => ?_
          refine (ih c₂).bind fun bs _ hbs => ?_
          exact .result (List.forall_mem_cons.mpr ⟨hvalue, hbs⟩)

/-- A block from after its word, at which it is marked. -/
theorem block_gives (h : nested.Opens text) (hstart : TokenAt text start "do".toList) :
    Gives text (block nested start) (BeginsIn text start) := by
  refine fun c => (expect_stays "\x7b" c).bind fun _ _ _ => ?_
  refine (From.bounded fun fuel => blockBindings_gives h fuel _).bind fun bs _ hbs => ?_
  refine (h.inner _).bind fun body _ hbody => ?_
  refine (close_stays "\x7d" _).bind fun _ _ _ => .result (.ofMark rfl hstart ?_)
  exact List.forall_mem_cons.mpr ⟨hbody, List.forall_mem_map.mpr hbs⟩

/-- A fold from after its word. The operator it folds with is a part of
it, but no expression. -/
theorem fold_gives (h : nested.Opens text) (hstart : TokenAt text start "fold".toList) :
    Gives text (fold nested start) (BeginsIn text start) := by
  refine fun c => (expect_stays "(" c).bind fun _ _ _ => ?_
  refine (infixOperator_stays.required _).bind fun op _ _ => ?_
  refine (expect_stays "," _).bind fun _ c₁ _ => ?_
  refine (h.inner c₁).bind fun arg _ harg => ?_
  refine (close_stays ")" _).bind fun _ _ _ => .result (.ofMark rfl hstart ?_)
  exact List.forall_mem_singleton.mpr harg

/-- The words are looked for one after another, all at the mark: as long
as none is found the cursor has not moved. -/
theorem word_from (h : nested.Opens text) (hs : c.skip = c) :
    From text c (word nested c.offset) fun e _ => BeginsIn text c.offset e := by
  refine (found_keyword hs "true" nofun).bind fun isTrue c' hseen => ?_
  cases isTrue with
  | true => exact .result (.leaf rfl hseen rfl)
  | false =>
    obtain rfl : c' = c := hseen
    refine (found_keyword hs "false" nofun).bind fun isFalse c'' hseen => ?_
    cases isFalse with
    | true => exact .result (.leaf rfl hseen rfl)
    | false =>
      obtain rfl : c'' = c' := hseen
      refine (found_keyword hs "fold" nofun).bind fun isFold c' hseen => ?_
      cases isFold with
      | true => exact fold_gives h hseen c'
      | false =>
        obtain rfl : c' = c'' := hseen
        refine (found_keyword hs "do" nofun).bind fun isBlock c'' hseen => ?_
        cases isBlock with
        | true => exact block_gives h hseen c''
        | false =>
          obtain rfl : c'' = c' := hseen
          -- no word that is reserved: a name, called or not
          refine (ident_from hs).optional.bind fun o c' ho => ?_
          cases o with
          | none => exact .mark_bind .missing
          | some id =>
            refine ((token_stays "(").found c').bind fun isCall c' _ => ?_
            cases isCall with
            | true =>
                refine (arguments_gives h c').bind fun args _ hargs => ?_
                exact .result (.ofMark rfl ho hargs)
            | false => exact .result (.leaf rfl ho rfl)

/-- What a primary is can be seen from the character it begins with, and
that character is the first one of its token. -/
theorem primary_from (h : nested.Opens text) (hs : c.skip = c) :
    From text c (primary nested) fun e _ => BeginsIn text c.offset e := by
  refine .ofOn fun hc => .mark_here hs (.ahead_here hs ?_)
  split
  · rename_i heq
    exact (quoted_stays _).bind fun s _ _ => .result (.leaf rfl (hc.tokenAt heq nofun) rfl)
  · rename_i heq
    have htoken : TokenAt text c.offset ['t', '\''] := hc.tokenAt heq nofun
    exact (time_gives _).bind fun m _ hm => .result (.leaf rfl ⟨htoken, hm⟩ rfl)
  · rename_i heq
    exact (token_stays "@" _).bind fun _ _ _ => .result (.leaf rfl (hc.tokenAt heq nofun) rfl)
  · rename_i heq
    have hparenthesis : TokenAt text c.offset ['('] := hc.tokenAt heq nofun
    refine (token_stays "(" _).bind fun _ c₁ _ => ?_
    refine (h.inner c₁).bind fun e c₂ he => ?_
    refine (close_stays ")" c₂).bind fun _ _ _ => ?_
    -- no mark is left for the parenthesis, but the operand begins there
    exact .result ⟨he, .inl hparenthesis⟩
  · rename_i heq
    exact braces_gives h (hc.tokenAt heq nofun) _
  · rename_i digit rest _ _ _ _ _ heq
    split
    · rename_i hdigit
      have htoken : TokenAt text c.offset [digit] := hc.tokenAt heq nofun
      exact (number_stays _).bind fun d _ _ => .result (.leaf rfl ⟨digit, hdigit, htoken⟩ rfl)
    · exact word_from h hs
  · exact word_from h hs

-- ========================================================== operators

/-- A selection begins where its base does. -/
theorem selection_gives (h : nested.Opens text) (hpoint : TokenAt text start ['.']) {offset : Nat}
    {base : Expr} (hbase : BeginsIn text offset base) :
    Gives text (selection nested start base) (BeginsIn text offset) := by
  refine fun c => ((token_stays "\x7b").found c).bind fun isFields c' _ => ?_
  cases isFields with
  | true =>
      refine (fieldList_gives h c').bind fun list _ hlist => ?_
      refine (close_stays "\x7d" _).bind fun _ _ _ => .result ⟨?_, hbase.begins⟩
      exact Expr.everywhere_iff.mpr ⟨⟨hpoint, hlist.order, hlist.entries⟩,
        List.forall_mem_cons.mpr ⟨hbase.opens, hlist.values⟩⟩
  | false =>
      refine ((keyword_stays "where").found c').bind fun isWhere c'' _ => ?_
      cases isWhere with
      | true =>
          refine (expect_stays "(" c'').bind fun _ c₁ _ => ?_
          refine (h.inner c₁).bind fun predicate _ hp => ?_
          refine (close_stays ")" _).bind fun _ _ _ => .result ⟨?_, hbase.begins⟩
          exact Expr.everywhere_iff.mpr ⟨hpoint,
            List.forall_mem_cons.mpr ⟨hbase.opens, List.forall_mem_singleton.mpr hp⟩⟩
      | false =>
          refine (name_stays c'').bind fun x _ _ => .result ⟨?_, hbase.begins⟩
          exact Expr.everywhere_iff.mpr ⟨hpoint, List.forall_mem_singleton.mpr hbase.opens⟩

/-- The loop hands the base on, and with it where the base begins. -/
theorem selections_gives (h : nested.Opens text) (fuel : Nat) {offset : Nat} {base : Expr}
    (hbase : BeginsIn text offset base) :
    Gives text (selections nested fuel base) (BeginsIn text offset) := by
  induction fuel generalizing base with
  | zero => exact fun _ => .result hbase
  | succ fuel ih =>
      refine fun c => .mark_bind ?_
      refine (found_token c.skip_skip "." nofun).bind fun more c' hseen => ?_
      cases more with
      | true =>
          refine (selection_gives h hseen hbase c').bind fun e c₁ he => ?_
          exact ih he c₁
      | false => exact .result hbase

/-- An operand with its selections begins where it is read. -/
theorem postfixed_from (h : nested.Opens text) (hs : c.skip = c) :
    From text c (postfixed nested) fun e _ => BeginsIn text c.offset e := by
  refine (primary_from h hs).bind fun base c₁ hbase => ?_
  exact .bounded fun fuel => selections_gives h fuel hbase c₁

/-- An operand is marked at its sign if it has one. -/
theorem operandOf_from (h : nested.Opens text) :
    From text c (operandOf nested) fun e _ => BeginsIn text c.skip.offset e := by
  have hs := c.skip_skip
  refine .mark_bind ((found_keyword hs "not" nofun).bind fun isNot c' hseen => ?_)
  cases isNot with
  | true =>
      refine (h.operand.required c').bind fun e _ he => ?_
      exact .result (.ofMark rfl hseen (List.forall_mem_singleton.mpr he))
  | false =>
      obtain rfl : c' = c.skip := hseen
      refine (found_token hs "-" nofun).bind fun isNeg c' hseen => ?_
      cases isNeg with
      | true =>
          refine (h.operand.required c').bind fun e _ he => ?_
          exact .result (.ofMark rfl hseen (List.forall_mem_singleton.mpr he))
      | false =>
          obtain rfl : c' = c.skip := hseen
          exact postfixed_from h hs

theorem operandOf_gives (h : nested.Opens text) :
    Gives text (operandOf nested) (ExprIn text) :=
  fun _ => (operandOf_from h).mono fun _ _ he => he.opens

/-- A step of a chain whose marks stand at their tokens. -/
structure StepIn (text : List Char) (s : Step) : Prop where
  op : isInfix s.op = true ∧ TokenAt text s.mark s.op.toList
  operand : ExprIn text s.operand

/-- Every step of a chain is marked at its operator. -/
theorem steps_gives {operand : Reading Expr} (h : Gives text operand (ExprIn text)) (fuel : Nat) :
    Gives text (steps operand fuel) fun ss => ∀ s ∈ ss, StepIn text s := by
  induction fuel with
  | zero => exact fun _ => .result (List.forall_mem_nil _)
  | succ fuel ih =>
      refine fun c => .mark_bind ?_
      refine (infixOperator_from c.skip_skip).optional.bind fun o c' ho => ?_
      cases o with
      | none => exact .result (List.forall_mem_nil _)
      | some op =>
          refine (h.required c').bind fun rhs c₁ hrhs => ?_
          refine (ih c₁).bind fun rest _ hrest => ?_
          exact .result (List.forall_mem_cons.mpr ⟨⟨ho, hrhs⟩, hrest⟩)

/-- A chain takes its mark before its first operand, whose own token may
stand further on. -/
theorem expressionOf_gives (h : nested.Opens text) :
    Gives text (expressionOf nested) (ExprIn text) := by
  refine fun c => .mark_bind ((operandOf_from h).bind fun first c' hfirst => ?_)
  rw [c.skip_skip] at hfirst
  have hsteps : From text c' (bounded (steps (operandOf nested))) fun ss _ =>
      ∀ s ∈ ss, StepIn text s :=
    .bounded fun fuel => steps_gives (operandOf_gives h) fuel c'
  refine hsteps.bind fun rest _ hrest => ?_
  cases rest with
  | nil => exact .result hfirst.opens
  | cons step rest =>
      have hops : ∀ s ∈ step :: rest, isInfix s.op = true ∧ TokenAt text s.mark s.op.toList :=
        fun s hs => (hrest s hs).op
      have hoperands : ∀ e ∈ (step :: rest).map Step.operand, ExprIn text e :=
        List.forall_mem_map.mpr fun s hs => (hrest s hs).operand
      refine .result (Expr.everywhere_iff.mpr ⟨⟨hfirst.begins, hops⟩, ?_⟩)
      exact List.forall_mem_cons.mpr ⟨hfirst.opens, hoperands⟩

end Nested

/-- At depth zero nothing is read, so nothing can stand wrong. -/
theorem nested_opens (depth : Nat) : (nested depth).Opens text := by
  induction depth with
  | zero => exact ⟨fun _ => .missing, fun _ => .missing⟩
  | succ depth ih => exact ⟨expressionOf_gives ih, operandOf_gives ih⟩

theorem expression_gives : Gives text expression (ExprIn text) := by
  intro c
  exact .bounded fun depth => expressionOf_gives (nested_opens depth) c

theorem requiredExpression_gives : Gives text requiredExpression (ExprIn text) :=
  expression_gives.required

-- ========================================================== sentences

/-- A type definition from after its word. The supertype has a mark of
its own. -/
theorem typeDefinition_gives {start : Nat} (hstart : TokenAt text start "type".toList) :
    Gives text (typeDefinition start) (Sentence.Opens text) := by
  refine fun c => (name_stays c).bind fun typeName c' _ => ?_
  have hrest (supertype : Option (String × Nat))
      (hsupertype : ∀ s ∈ supertype, TokenAt text s.2 s.1.toList) : Gives text (do
        expect "("
        let components ← columns type
        close ")"
        return Sentence.typeDef start typeName supertype components) (Sentence.Opens text) := by
    intro c
    refine (expect_stays "(" c).bind fun _ c₁ _ => ?_
    refine (columns_gives type_gives c₁).bind fun cs c₂ hcs => ?_
    refine (close_stays ")" c₂).bind fun _ _ _ => ?_
    exact .result ⟨hstart, hsupertype, hcs⟩
  refine ((token_stays ":").found c').bind fun hasSupertype c'' _ => ?_
  cases hasSupertype with
  | true =>
      refine .mark_bind ?_
      refine (name_from c''.skip_skip).bind fun x c₁ hx => ?_
      refine hrest (some (x, _)) ?_ c₁
      rintro _ ⟨⟩
      exact hx
  | false => exact hrest none nofun c''

/-- A function definition from after its word. -/
theorem definition_gives {start : Nat} (hstart : TokenAt text start "def".toList) :
    Gives text (definition start) (Sentence.Opens text) := by
  intro c
  refine (name_stays c).bind fun functionName c₁ _ => ?_
  refine (expect_stays "(" c₁).bind fun _ c₂ _ => ?_
  refine (columns_gives type_gives c₂).bind fun params _ hparams => ?_
  refine (close_stays ")" _).bind fun _ c' _ => ?_
  have hrest (returns : Option TypeExpr) (hreturns : ∀ t ∈ returns, t.Opens text) : Gives text (do
      expect "=>"
      return Sentence.define start functionName params returns (← requiredExpression))
        (Sentence.Opens text) := by
    intro c
    refine (expect_stays "=>" c).bind fun _ c₁ _ => ?_
    refine (requiredExpression_gives c₁).bind fun body _ hbody => ?_
    exact .result ⟨hstart, hparams, hreturns, hbody⟩
  refine ((token_stays ":").found c').bind fun hasType c'' _ => ?_
  cases hasType with
  | true =>
      refine (type_gives c'').bind fun t c₁ ht => ?_
      refine hrest (some t) ?_ c₁
      rintro _ ⟨⟩
      exact ht
  | false => exact hrest none nofun c''

/-- A sentence is told by its first word, or by a name with the sign of
assignment; otherwise it is an expression. -/
theorem sentence_gives : Gives text sentence (Sentence.Opens text) := by
  intro c
  have hs := c.skip_skip
  refine .mark_bind ((found_keyword hs "type" nofun).bind fun isType c' hseen => ?_)
  cases isType with
  | true => exact typeDefinition_gives hseen c'
  | false =>
      obtain rfl : c' = c.skip := hseen
      refine (found_keyword hs "def" nofun).bind fun isDef c' hseen => ?_
      cases isDef with
      | true => exact definition_gives hseen c'
      | false =>
          obtain rfl : c' = c.skip := hseen
          refine (boundName_from hs).optional.bind fun o c' ho => ?_
          cases o with
          | some target =>
              exact (requiredExpression_gives c').bind fun e _ he => .result ⟨ho, he⟩
          | none => exact (expression_gives c').bind fun e _ he => .result he

end Reading

-- ==================================================== whole texts

namespace Sentence

variable {text : List Char}

/-- The reader begins on the whole text, so what it gives stands in the
text. -/
theorem opens_of_read {s : Sentence} (h : read text = .ok s) : s.Opens text := by
  have hrun := Reading.sentence_gives ⟨0, text⟩ ⟨[], rfl, rfl⟩
  unfold read at h
  split at h
  · rename_i s' c hread
    rw [hread] at hrun
    dsimp only at h
    split at h
    · cases h
      exact hrun.2
    · cases h
  · cases h

/-- An error points between two characters of the text: at what follows
the sentence, or at the token that could not be read. -/
theorem isBoundary_of_read {e : ReadError} (h : read text = .error e) :
    IsBoundary text e.offset := by
  have hrun := Reading.sentence_gives ⟨0, text⟩ ⟨[], rfl, rfl⟩
  unfold read at h
  split at h
  · rename_i s c hread
    rw [hread] at hrun
    dsimp only at h
    split at h
    · cases h
    · cases h
      exact hrun.1.skip.isBoundary
  · rename_i m hread
    rw [hread] at hrun
    cases h
    exact (Cursor.On.skip hrun).isBoundary

/-- Whether a text reads as a sentence that passes a check. -/
def readsAs (check : Sentence → Bool) (text : List Char) : Bool :=
  match read text with
  | .ok s => check s
  | .error _ => false

/-- A text that reads as something is read, and the check has passed. -/
theorem readsAs_eq_true {check : Sentence → Bool} (h : readsAs check text = true) :
    ∃ s, read text = .ok s ∧ check s = true := by
  unfold readsAs at h
  cases hread : read text with
  | ok s =>
      rw [hread] at h
      exact ⟨s, rfl, h⟩
  | error e =>
      rw [hread] at h
      cases h

/-- In a text that is read as a sentence, every mark lies at a character
and the text goes on there with the first token of the construct that
carries the mark. In a text that is refused, the error lies between two
characters or at one end. -/
theorem marks_point_at_tokens (text : List Char) :
    match read text with
    | .ok s => s.Opens text ∧ s.IsPlaced (Text.IsCharStart text)
    | .error e => IsBoundary text e.offset ∧ e.offset ≤ Text.byteLength text := by
  split
  · rename_i s hread
    have hopens := opens_of_read hread
    exact ⟨hopens, isPlaced_of_opens hopens⟩
  · rename_i e hread
    have hboundary := isBoundary_of_read hread
    exact ⟨hboundary, Nat.le_trans (Nat.le_add_right _ _) hboundary.le_byteLength⟩

/-- A chain that begins with a parenthesis, which its first operand does
not carry. -/
example : readsAs (fun
    | .expression (.chain 0 (.member 3 (.name 1 _) _) [⟨_, 6, .neg 8 (.name 9 _)⟩]) => true
    | _ => false) "(a).b + -c".toList = true := by decide +kernel

/-- The marks of a sentence lie in its text, and its chains have infix
operators only. -/
theorem isPlaced_of_read {s : Sentence} (h : read text = .ok s) :
    s.IsPlaced (· ≤ Text.byteLength text) :=
  (isPlaced_of_opens (opens_of_read h)).mono fun _ hm => Nat.le_of_lt hm.1

end Sentence

end RelQuery
