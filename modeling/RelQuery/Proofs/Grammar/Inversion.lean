/-
Reading inverts writing.

The tokens of a writable tree may stand in a text (`AllTokens`), so
readers can be followed from token to token. Every writable expression
is read back at every level, by induction on its parts, one construct
each. The forms of a sentence stand around an expression that nothing
follows; reading a written sentence therefore comes to the end of the
text, and gives the sentence back but for its marks.
-/
import RelQuery.Grammar.Sentence
import RelQuery.Proofs.Grammar.Primaries
import RelQuery.Proofs.Grammar.Selections

namespace RelQuery

open Text Reading

-- ================================================= tokens are tokens

/-- No blank stands in a name. -/
theorem isBlank_of_isNameChar {c : Char} (h : isNameChar c = true) : isBlank c = false := by
  rw [← Bool.not_eq_true]
  intro hblank
  simp only [isBlank, Bool.or_eq_true, Bool.and_eq_true, decide_eq_true_eq, beq_iff_eq] at hblank
  rw [isNameChar_eq, Bool.or_eq_true] at h
  rcases h with hstart | hc
  · rcases isNameStart_cases hstart with hupper | hlower | rfl
    · omega
    · omega
    · exact absurd hblank (by decide)
  · have hdigit : 48 ≤ c.toNat ∧ c.toNat ≤ 57 := Char.isDigit_iff_toNat.mp hc
    omega

/-- A name is a word that begins like one. -/
theorem isToken_of_isName {x : String} (hx : isName x = true) : isToken x = true := by
  obtain ⟨c, v, hc, hstart, hall⟩ := isWord_cases (isName_cases hx).1
  have hdash : c ≠ '-' := by
    rintro rfl
    cases hstart
  rw [List.all_cons, Bool.and_eq_true] at hall
  simp [isToken, hc, isBlank_of_isNameChar hall.1, hdash, hall.2]

theorem isToken_of_isInfix {op : String} (hop : isInfix op = true) : isToken op = true :=
  (show ∀ op ∈ signOperators ++ wordOperators, isToken op = true by decide) op (mem_of_isInfix hop)

/-- A quoted text begins with its quote. -/
theorem isToken_quote (s : String) : isToken (Value.quote s) = true := by
  rw [isToken, quote_toList]
  rfl

/-- A number without a sign begins with a digit. -/
theorem isToken_write {d : Decimal} (hd : d.negative = false) : isToken d.write = true := by
  obtain ⟨c, w, heq, hc⟩ := Decimal.write_cons hd
  have hblank : isBlank c = false :=
    isBlank_of_isNameChar (by rw [isNameChar_eq, hc, Bool.or_true])
  have hdash : c ≠ '-' := by
    rintro rfl
    cases hc
  simp [isToken, heq, hblank, hdash, isNameStart_of_isDigit hc]

/-- All of the tokens may stand in a text. -/
def AllTokens (ts : List String) : Prop := ∀ t ∈ ts, isToken t = true

@[simp] theorem allTokens_nil : AllTokens [] := fun _ ht => by cases ht

@[simp] theorem allTokens_cons {t : String} {ts : List String} :
    AllTokens (t :: ts) ↔ isToken t = true ∧ AllTokens ts := List.forall_mem_cons

@[simp] theorem allTokens_append {ts us : List String} :
    AllTokens (ts ++ us) ↔ AllTokens ts ∧ AllTokens us := List.forall_mem_append

@[simp] theorem allTokens_grouped {b : Bool} {ts : List String} :
    AllTokens (grouped b ts) ↔ AllTokens ts := by
  cases b with
  | true => simp +decide [grouped]
  | false => rfl

@[simp] theorem allTokens_commas {items : List (List String)} :
    AllTokens (commas items) ↔ ∀ item ∈ items, AllTokens item := by
  cases items with
  | nil => simp [commas]
  | cons item items =>
      have hrest : AllTokens (items.flatMap ("," :: ·)) ↔ ∀ next ∈ items, AllTokens next := by
        induction items with
        | nil => simp
        | cons next items ih => simp +decide [ih]
      rw [commas_cons, allTokens_append, hrest, List.forall_mem_cons]

section Written

variable (style : Style)

mutual

/-- The tokens of a writable type. -/
theorem TypeExpr.allTokens : (t : TypeExpr) → t.isWritable = true → AllTokens t.tokens
  | .named x _, h => by simp [TypeExpr.tokens, isToken_of_isName h]
  | .tuple cs, h => by
      have hcs := columnTokens_allTokens cs h
      simp +decide [TypeExpr.tokens, hcs]
  | .relation cs, h => by
      have hcs := columnTokens_allTokens cs h
      simp +decide [TypeExpr.tokens, hcs]

theorem columnTokens_allTokens : (cs : List (String × TypeExpr)) → writableColumns cs = true →
    AllTokens (commas (columnTokens cs))
  | [], _ => by simp [columnTokens]
  | (x, t) :: rest, h => by
      simp only [writableColumns, Bool.and_eq_true] at h
      have ht := TypeExpr.allTokens t h.1.2
      have hrest := columnTokens_allTokens rest h.2
      rw [allTokens_commas] at hrest
      rw [columnTokens, allTokens_commas, List.forall_mem_cons]
      exact ⟨by simp +decide [isToken_of_isName h.1.1, ht], hrest⟩

end

/-- The tokens of bindings are tokens if those of the values are. -/
theorem bindingTokens_allTokens {bs : List Binding} (hnames : ∀ b ∈ bs, isName b.name = true)
    (hvalues : ∀ b ∈ bs, AllTokens (b.value.tokens style)) :
    AllTokens (commas (bindingTokens style bs)) := by
  rw [bindingTokens_eq, allTokens_commas, List.forall_mem_map]
  intro b hb
  simp +decide [Binding.tokens, isToken_of_isName (hnames b hb), hvalues b hb]

/-- The tokens of the bindings of a block are tokens if those of the values
are. -/
theorem localTokens_allTokens {bs : List Binding} (hnames : ∀ b ∈ bs, isName b.name = true)
    (hvalues : ∀ b ∈ bs, AllTokens (b.value.tokens style)) : AllTokens (localTokens style bs) := by
  induction bs with
  | nil => simp [localTokens]
  | cons b bs ih =>
      obtain ⟨x, value⟩ := b
      rw [List.forall_mem_cons] at hnames hvalues
      simp +decide [localTokens, isToken_of_isName hnames.1, hvalues.1, ih hnames.2 hvalues.2]

/-- The tokens of steps are tokens if those of the operands are. -/
theorem stepTokens_allTokens {ss : List Step} (hops : ∀ s ∈ ss, isInfix s.op = true)
    (hoperands : ∀ s ∈ ss, AllTokens (s.operand.tokens style)) :
    AllTokens (stepTokens style ss) := by
  induction ss with
  | nil => simp [stepTokens]
  | cons s ss ih =>
      obtain ⟨op, mark, operand⟩ := s
      rw [List.forall_mem_cons] at hops hoperands
      simp [stepTokens, isToken_of_isInfix hops.1, hoperands.1, ih hops.2 hoperands.2]

/-- The items of a field list, ordering keys first. -/
theorem fieldTokens_allTokens {order : List OrderKey} {entries : List FieldEntry}
    (horder : ∀ k ∈ order, isName k.name = true) (hentries : ∀ e ∈ entries, isName e.name = true)
    (hvalues : ∀ e ∈ entries, ∀ x ∈ e.value?, AllTokens (x.tokens style)) :
    AllTokens (commas (orderTokens order ++ entryTokens style entries)) := by
  rw [allTokens_commas, List.forall_mem_append]
  constructor
  · have hkeys : ∀ k ∈ order, AllTokens k.tokens := by
      intro k hk
      obtain ⟨x, descending, grouped, mark⟩ := k
      have hname := isToken_of_isName (horder _ hk)
      cases descending <;> cases grouped <;> simp +decide [OrderKey.tokens, hname]
    rw [orderTokens]
    split
    · simp
    · simpa +decide using hkeys
  · rw [entryTokens_eq, List.forall_mem_map]
    intro e he
    cases e with
    | plain x mark =>
        have hname : isToken x = true := isToken_of_isName (hentries (.plain x mark) he)
        simp [FieldEntry.tokens, hname]
    | computed x mark value =>
        have hname : isToken x = true := isToken_of_isName (hentries (.computed x mark value) he)
        have hvalue := hvalues _ he value rfl
        simp +decide [FieldEntry.tokens, hname, hvalue]

theorem Style.allBut_allTokens : AllTokens style.allBut := by
  obtain ⟨word, comma⟩ := style
  cases word <;> cases comma <;> simp +decide [Style.allBut]

-- ============================================== tokens of one construct

/-- A name and its arguments. -/
theorem call_allTokens {mark : Nat} {f : String} {args : List Expr} (hf : isName f = true)
    (hargs : ∀ e ∈ args, AllTokens (e.tokens style)) :
    AllTokens ((Expr.call mark f args).tokens style) := by
  simpa +decide [Expr.tokens, isToken_of_isName hf, argumentTokens_eq] using hargs

theorem fold_allTokens {mark : Nat} {op : String} {arg : Expr} (hop : isInfix op = true)
    (harg : AllTokens (arg.tokens style)) : AllTokens ((Expr.fold mark op arg).tokens style) := by
  simp +decide [Expr.tokens, isToken_of_isInfix hop, harg]

theorem chain_allTokens {mark : Nat} {first : Expr} {steps : List Step}
    (hops : ∀ s ∈ steps, isInfix s.op = true) (hfirst : AllTokens (first.tokens style))
    (hoperands : ∀ s ∈ steps, AllTokens (s.operand.tokens style)) :
    AllTokens ((Expr.chain mark first steps).tokens style) := by
  have hsteps := stepTokens_allTokens style hops hoperands
  simp [Expr.tokens, hfirst, hsteps]

/-- Neither a sign nor a point adds anything but itself and, where it
binds tighter than what it stands at, parentheses. -/
theorem sign_allTokens {mark : Nat} {arg : Expr} (harg : AllTokens (arg.tokens style)) :
    AllTokens ((Expr.not mark arg).tokens style) ∧
        AllTokens ((Expr.neg mark arg).tokens style) := by
  constructor
  · simp +decide [Expr.tokens, harg]
  · simp +decide [Expr.tokens, harg]

theorem member_allTokens {mark : Nat} {base : Expr} {x : String} (hx : isName x = true)
    (hbase : AllTokens (base.tokens style)) :
    AllTokens ((Expr.member mark base x).tokens style) := by
  simp +decide [Expr.tokens, isToken_of_isName hx, hbase]

theorem restrict_allTokens {mark : Nat} {base predicate : Expr}
    (hbase : AllTokens (base.tokens style)) (hpredicate : AllTokens (predicate.tokens style)) :
    AllTokens ((Expr.restrict mark base predicate).tokens style) := by
  simp +decide [Expr.tokens, hbase, hpredicate]

/-- A list may begin with a star, a word or neither, as the style has
it. -/
theorem fields_allTokens {mark : Nat} {base : Expr} {allBut : Bool} {order : List OrderKey}
    {entries : List FieldEntry} (horder : ∀ k ∈ order, isName k.name = true)
    (hentries : ∀ e ∈ entries, isName e.name = true) (hbase : AllTokens (base.tokens style))
    (hvalues : ∀ e ∈ entries, ∀ x ∈ e.value?, AllTokens (x.tokens style)) :
    AllTokens ((Expr.fields mark base ⟨allBut, order, entries⟩).tokens style) := by
  have hitems := fieldTokens_allTokens style horder hentries hvalues
  have hallBut : AllTokens (if allBut then style.allBut else []) := by
    cases allBut with
    | true => exact style.allBut_allTokens
    | false => exact allTokens_nil
  rw [Expr.tokens]
  simp only [allTokens_append, allTokens_cons, allTokens_grouped]
  exact ⟨⟨⟨hbase, rfl, rfl, hallBut⟩, hitems⟩, rfl, allTokens_nil⟩

/-- The tokens of a row are tokens. -/
theorem row_allTokens {mark : Nat} {bs : List Binding} (hnames : ∀ b ∈ bs, isName b.name = true)
    (hvalues : ∀ b ∈ bs, AllTokens (b.value.tokens style)) :
    AllTokens ((Expr.row mark bs).tokens style) := by
  have hbindings := bindingTokens_allTokens style hnames hvalues
  rw [Expr.tokens]
  simp only [allTokens_append, allTokens_cons]
  exact ⟨⟨rfl, hbindings⟩, rfl, allTokens_nil⟩

/-- Each row of a table is written like a row, in braces of its own. -/
theorem table_allTokens {mark : Nat} {rows : List (List Binding)}
    (hnames : ∀ row ∈ rows, ∀ b ∈ row, isName b.name = true)
    (hvalues : ∀ row ∈ rows, ∀ b ∈ row, AllTokens (b.value.tokens style)) :
    AllTokens ((Expr.table mark rows).tokens style) := by
  have hrows : AllTokens (commas (rowTokens style rows)) := by
    rw [rowTokens_eq, allTokens_commas, List.forall_mem_map]
    intro row hrow
    have hbindings := bindingTokens_allTokens style (hnames row hrow) (hvalues row hrow)
    rw [← bindingTokens_eq]
    simp only [allTokens_append, allTokens_cons]
    exact ⟨⟨rfl, hbindings⟩, rfl, allTokens_nil⟩
  rw [Expr.tokens]
  simp only [allTokens_append, allTokens_cons]
  exact ⟨⟨rfl, hrows⟩, rfl, allTokens_nil⟩

/-- The tokens of a table without rows are tokens. -/
theorem emptyTable_allTokens {mark : Nat} {cs : List (String × TypeExpr)}
    (hcs : writableColumns cs = true) : AllTokens ((Expr.emptyTable mark cs).tokens style) := by
  have hcolumns := columnTokens_allTokens cs hcs
  rw [Expr.tokens]
  simp only [allTokens_append, allTokens_cons]
  exact ⟨⟨rfl, rfl, hcolumns⟩, rfl, rfl, allTokens_nil⟩

theorem block_allTokens {mark : Nat} {bs : List Binding} {body : Expr}
    (hnames : ∀ b ∈ bs, isName b.name = true)
    (hvalues : ∀ b ∈ bs, AllTokens (b.value.tokens style)) (hbody : AllTokens (body.tokens style)) :
    AllTokens ((Expr.block mark bs body).tokens style) := by
  have hlocals := localTokens_allTokens style hnames hvalues
  simp +decide [Expr.tokens, hlocals, hbody]

/-- The induction is on the parts of the expression; what is sound of
its own tokens is the same for every construct. -/
theorem Expr.IsWritable.allTokens {e : Expr} (he : e.IsWritable) : AllTokens (e.tokens style) := by
  induction he with
  | @intro e hsound _ ih =>
      cases e with
      | number mark value =>
          have hvalue : value.negative = false := by simpa [Expr.isSound] using hsound
          simp [Expr.tokens, isToken_write hvalue]
      | text mark value => simp [Expr.tokens, isToken_quote]
      | bool mark value => cases value <;> simp +decide [Expr.tokens]
      | time mark value => cases hsound
      | name mark x => simp [Expr.tokens, isToken_of_isName hsound]
      | currentRow mark => simp +decide [Expr.tokens]
      | call mark f args => exact call_allTokens style hsound ih
      | fold mark op arg => exact fold_allTokens style hsound (ih arg List.mem_cons_self)
      | chain mark first steps =>
          simp only [Expr.isSound, Bool.and_eq_true, List.all_eq_true] at hsound
          exact chain_allTokens style hsound.2 (ih first List.mem_cons_self)
            fun s hs => ih s.operand (List.mem_cons_of_mem _ (List.mem_map_of_mem hs))
      | not mark arg => exact (sign_allTokens style (ih arg List.mem_cons_self)).1
      | neg mark arg => exact (sign_allTokens style (ih arg List.mem_cons_self)).2
      | member mark base x => exact member_allTokens style hsound (ih base List.mem_cons_self)
      | restrict mark base predicate =>
          exact restrict_allTokens style (ih base List.mem_cons_self)
            (ih predicate (List.mem_cons_of_mem _ List.mem_cons_self))
      | fields mark base list =>
          obtain ⟨allBut, order, entries⟩ := list
          simp only [Expr.isSound, Bool.and_eq_true, List.all_eq_true] at hsound
          exact fields_allTokens style hsound.1 hsound.2 (ih base List.mem_cons_self)
            fun e he x hx =>
              ih x (List.mem_cons_of_mem _ (List.mem_filterMap.mpr ⟨e, he, hx⟩))
      | row mark bindings =>
          simp only [Expr.isSound, List.all_eq_true] at hsound
          exact row_allTokens style hsound fun b hb => ih b.value (List.mem_map_of_mem hb)
      | table mark rows =>
          simp only [Expr.isSound, Bool.and_eq_true, List.all_eq_true] at hsound
          -- the parts of a table are the values of all its rows
          exact table_allTokens style
            (fun row hrow b hb => hsound.2 b (List.mem_flatten_of_mem hrow hb))
            fun row hrow b hb => ih b.value (List.mem_map_of_mem (List.mem_flatten_of_mem hrow hb))
      | emptyTable mark columns =>
          simp only [Expr.isSound, Bool.and_eq_true] at hsound
          exact emptyTable_allTokens style hsound.2
      | block mark bindings body =>
          simp only [Expr.isSound, List.all_eq_true] at hsound
          exact block_allTokens style hsound
            (fun b hb => ih b.value (List.mem_cons_of_mem _ (List.mem_map_of_mem hb)))
            (ih body List.mem_cons_self)

-- ======================================================= expressions

/-- A writable expression is read back at every level. -/
theorem Expr.IsWritable.isRead {e : Expr} (he : e.IsWritable) : IsRead style e := by
  induction he with
  | @intro e hsound _ ih =>
      -- each construct is read back if its parts are; what is asked of the node
      -- itself is its soundness
      cases e with
      | number mark value => exact number_isRead (by simpa [Expr.isSound] using hsound)
      | text mark value => exact text_isRead mark value
      | bool mark value => exact bool_isRead mark value
      -- no moment is written
      | time mark value => cases hsound
      | name mark x => exact name_isRead hsound
      | currentRow mark => exact currentRow_isRead mark
      | call mark f args => exact call_isRead hsound ih
      | fold mark op arg => exact fold_isRead hsound (ih arg List.mem_cons_self)
      | chain mark first steps =>
          simp only [Expr.isSound, Bool.and_eq_true, Bool.not_eq_true', List.isEmpty_eq_false_iff,
            List.all_eq_true] at hsound
          exact chain_isRead hsound.1 hsound.2 (ih first List.mem_cons_self)
            fun s hs => ih s.operand (List.mem_cons_of_mem _ (List.mem_map_of_mem hs))
      | not mark arg => exact not_isRead (ih arg List.mem_cons_self)
      | neg mark arg => exact neg_isRead (ih arg List.mem_cons_self)
      | member mark base x => exact member_isRead (ih base List.mem_cons_self) hsound
      | restrict mark base predicate =>
          exact restrict_isRead (ih base List.mem_cons_self)
            (ih predicate (List.mem_cons_of_mem _ List.mem_cons_self))
      | fields mark base list =>
          simp only [Expr.isSound, Bool.and_eq_true, List.all_eq_true] at hsound
          exact fields_isRead (ih base List.mem_cons_self) hsound.1 hsound.2 fun e he x hx =>
            ih x (List.mem_cons_of_mem _ (List.mem_filterMap.mpr ⟨e, he, hx⟩))
      | row mark bindings =>
          simp only [Expr.isSound, List.all_eq_true] at hsound
          exact row_isRead hsound fun b hb => ih b.value (List.mem_map_of_mem hb)
      | table mark rows =>
          simp only [Expr.isSound, Bool.and_eq_true, Bool.not_eq_true', List.isEmpty_eq_false_iff,
            List.all_eq_true] at hsound
          exact table_isRead hsound.1
            (fun row hrow b hb => hsound.2 b (List.mem_flatten_of_mem hrow hb))
            fun row hrow b hb => ih b.value (List.mem_map_of_mem (List.mem_flatten_of_mem hrow hb))
      | emptyTable mark columns =>
          simp only [Expr.isSound, Bool.and_eq_true, Bool.not_eq_true', List.isEmpty_eq_false_iff]
            at hsound
          exact emptyTable_isRead hsound.1 hsound.2
      | block mark bindings body =>
          simp only [Expr.isSound, List.all_eq_true] at hsound
          exact block_isRead hsound
            (fun b hb => ih b.value (List.mem_cons_of_mem _ (List.mem_map_of_mem hb)))
            (ih body List.mem_cons_self)

-- ========================================================= sentences

/-- The same sentence but for its marks. -/
abbrev Sentence.Like (s s' : Sentence) : Prop := s'.unmarked = s.unmarked

variable {style}

/-- The expression a sentence ends with. -/
theorem Expr.IsWritable.reads {e : Expr} (he : e.IsWritable) :
    Reads expression (e.tokens style) [] (Reading.Like e) := by
  refine before_position.bounded fun depth hdepth => ?_
  have hreads := (he.isRead style).expression depth [] hdepth ends_nil
  rwa [List.append_nil] at hreads

namespace Reading

/-- The columns of a definition, between parentheses. -/
theorem definedColumns_reads {cs : List (String × TypeExpr)} (hcs : writableColumns cs = true)
    (tail : List String) :
    Reads (columns type) (commas (columnTokens cs) ++ ")" :: tail) (")" :: tail)
      fun ds => unmarkedColumns ds = unmarkedColumns cs :=
  columns_reads hcs (fun c hc tail _ => type_reads (writableColumns_iff.mp hcs c hc).2 tail)
    (by decide) tail

/-- A type definition after its word. The mark of the supertype is what
the text gives, so it is only known up to marks. -/
theorem typeDefinition_reads (start mark : Nat) {x : String} {supertype : Option (String × Nat)}
    {components : List (String × TypeExpr)}
    (hs : (Sentence.typeDef mark x supertype components).IsWritable) :
    Reads (typeDefinition start)
      (x :: ((supertype.elim [] fun s => [":", s.1]) ++
        "(" :: (commas (columnTokens components) ++ [")"]))) []
      (Sentence.typeDef mark x supertype components).Like := by
  obtain ⟨hname, hsuper, hcomponents⟩ := hs
  have hcolumns (found : Option (String × Nat))
      (hfound : found.map (fun s => (s.1, 0)) = supertype.map (fun s => (s.1, 0))) :
      Reads (do
        expect "("
        let cs ← columns type
        close ")"
        return .typeDef start x found cs) ("(" :: (commas (columnTokens components) ++ [")"])) []
        (Sentence.typeDef mark x supertype components).Like := by
    refine (expect_reads "(" _).bind fun _ _ => ?_
    refine (definedColumns_reads hcomponents []).bind fun cs hcs => ?_
    refine (close_reads ")" []).bind fun _ _ => ReadsAt.result ?_
    rw [Sentence.Like, Sentence.unmarked, Sentence.unmarked, hfound, hcs]
  refine (name_reads hname _).followedBy ?_
  cases supertype with
  | none =>
      have hmiss : Misses (token ":") ("(" :: (commas (columnTokens components) ++ [")"])) :=
        token_misses (d := ':') rfl (by simp [first?])
      exact hmiss.found.followedBy (hcolumns none rfl)
  | some s =>
      refine (token_reads ":" _).found.followedBy ((mark_reads _).bind fun place _ => ?_)
      exact (name_reads (hsuper s rfl) _).followedBy (hcolumns (some (s.1, place)) rfl)

/-- A function definition after its word. -/
theorem definition_reads (start mark : Nat) {x : String} {params : List (String × TypeExpr)}
    {returns : Option TypeExpr} {body : Expr}
    (hs : (Sentence.define mark x params returns body).IsWritable) :
    Reads (definition start)
      (x :: "(" :: (commas (columnTokens params) ++
        ")" :: ((returns.elim [] fun t => ":" :: t.tokens) ++ "=>" :: body.tokens style))) []
      (Sentence.define mark x params returns body).Like := by
  obtain ⟨hname, hparams, hreturns, hbody⟩ := hs
  refine (name_reads hname _).followedBy ((expect_reads "(" _).bind fun _ _ => ?_)
  refine (definedColumns_reads hparams _).bind fun cs hcs => ?_
  refine (close_reads ")" _).bind fun _ _ => ?_
  have hlast (found : Option TypeExpr)
      (hfound : found.map TypeExpr.unmarked = returns.map TypeExpr.unmarked) :
      Reads (do
        expect "=>"
        return .define start x cs found (← requiredExpression)) ("=>" :: body.tokens style) []
        (Sentence.define mark x params returns body).Like := by
    refine (expect_reads "=>" _).bind fun _ _ => ?_
    refine hbody.reads.required.bind fun e he => ReadsAt.result ?_
    rw [Sentence.Like, Sentence.unmarked, Sentence.unmarked, hcs, hfound, he]
  cases returns with
  | none =>
      have hmiss : Misses (token ":") ("=>" :: body.tokens style) :=
        token_misses (d := ':') rfl (by simp [first?])
      exact hmiss.found.followedBy (hlast none rfl)
  | some t =>
      refine (token_reads ":" _).found.followedBy ?_
      refine (type_reads (hreturns t rfl) _).bind fun t' ht => hlast (some t') ?_
      rw [Option.map_some, Option.map_some, ht]

/-- Each form of a sentence is found behind the forms that are tried
before it. -/
theorem sentence_reads {s : Sentence} (hs : s.IsWritable) :
    Reads sentence (s.tokens style) [] s.Like := by
  refine (mark_reads _).bind fun start _ => ?_
  cases s with
  | typeDef mark x supertype components =>
      simp only [Sentence.tokens, List.cons_append, List.append_assoc]
      exact (keyword_reads "type" _).found.followedBy (typeDefinition_reads start mark hs)
  | define mark x params returns body =>
      simp only [Sentence.tokens, List.cons_append, List.append_assoc]
      refine (keyword_misses (by decide) (by simp)).found.followedBy ?_
      exact (keyword_reads "def" _).found.followedBy (definition_reads start mark hs)
  | assign mark x value =>
      obtain ⟨hname, hvalue⟩ := hs
      -- a name is neither of the words, and the sign behind it tells the assignment
      refine (keyword_misses_name hname (by decide) (by decide) _).found.followedBy ?_
      refine (keyword_misses_name hname (by decide) (by decide) _).found.followedBy ?_
      refine (boundName_reads hname _).optional.bind fun o ho => ?_
      obtain ⟨y, rfl, rfl⟩ := ho
      refine hvalue.reads.required.bind fun e he => ReadsAt.result ?_
      rw [Sentence.Like, Sentence.unmarked, Sentence.unmarked, he]
  | expression value =>
      -- an expression begins with none of these, and has no name with a sign in
      -- front
      have hopens := (hs.isRead style).opens
      have hmiss : Misses boundName (value.tokens style ++ []) :=
        hopens.boundName_misses (by simp [first?])
      have htype := hopens.keyword_misses (.inl rfl) []
      have hdef := hopens.keyword_misses (.inr rfl) []
      rw [List.append_nil] at hmiss htype hdef
      refine htype.found.followedBy (hdef.found.followedBy (hmiss.optional.followedBy ?_))
      refine hs.reads.bind fun e he => ReadsAt.result ?_
      rw [Sentence.Like, Sentence.unmarked, Sentence.unmarked, he]

end Reading

/-- The tokens of a writable sentence. -/
theorem Sentence.IsWritable.allTokens {s : Sentence} (hs : s.IsWritable) :
    AllTokens (s.tokens style) := by
  cases s with
  | typeDef mark x supertype components =>
      obtain ⟨hname, hsuper, hcomponents⟩ := hs
      have hcolumns := columnTokens_allTokens components hcomponents
      -- what may stand behind the name
      have hhead : AllTokens (supertype.elim [] fun s => [":", s.1]) := by
        cases supertype with
        | none => exact allTokens_nil
        | some s => simp +decide [isToken_of_isName (hsuper s rfl)]
      rw [Sentence.tokens]
      simp only [allTokens_append, allTokens_cons]
      exact ⟨⟨⟨rfl, isToken_of_isName hname, hhead⟩, rfl, hcolumns⟩, rfl, allTokens_nil⟩
  | define mark x params returns body =>
      obtain ⟨hname, hparams, hreturns, hbody⟩ := hs
      have hcolumns := columnTokens_allTokens params hparams
      have hreturn : AllTokens (returns.elim [] fun t => ":" :: t.tokens) := by
        cases returns with
        | none => exact allTokens_nil
        | some t => simp +decide [TypeExpr.allTokens t (hreturns t rfl)]
      rw [Sentence.tokens]
      simp only [allTokens_append, allTokens_cons]
      exact ⟨⟨⟨rfl, isToken_of_isName hname, rfl, hcolumns⟩, rfl, hreturn⟩, rfl,
        hbody.allTokens style⟩
  | assign mark x value =>
      obtain ⟨hname, hvalue⟩ := hs
      exact allTokens_cons.mpr ⟨isToken_of_isName hname,
        allTokens_cons.mpr ⟨rfl, hvalue.allTokens style⟩⟩
  | expression value => exact Expr.IsWritable.allTokens style hs

end Written

/-- A written sentence is read back, to its end, up to marks. -/
theorem Sentence.read_write (style : Style) {s : Sentence} (hs : s.IsWritable) :
    ∃ s', Sentence.read (s.write style) = .ok s' ∧ s'.unmarked = s.unmarked := by
  have hstart : Before ⟨0, s.write style⟩ (s.tokens style) := ⟨.inl rfl, hs.allTokens⟩
  obtain ⟨s', c, hrun, hlike, hend⟩ := sentence_reads hs _ hstart
  have hrest : c.skip.rest.isEmpty = true := by
    rw [hend.skip_rest]
    rfl
  refine ⟨s', ?_, hlike⟩
  unfold Sentence.read
  rw [hrun]
  exact if_pos hrest

/-- Ordering keys right after all columns, and a chain below a sign. -/
theorem Sentence.read_write_selection : ∃ s,
    Sentence.read "a . \x7b allbut $ ( % - x ) , y := - ( 'it''s' + @ ) \x7d".toList = .ok s ∧
      s.unmarked = .expression (.fields 0 (.name 0 "a") ⟨true, [⟨"x", true, true, 0⟩],
        [.computed "y" 0 (.neg 0 (.chain 0 (.text 0 "it's") [⟨"+", 0, .currentRow 0⟩]))]⟩) := by
  have hrow : (Expr.currentRow 0).IsWritable := .intro rfl fun _ h => by cases h
  have htext : (Expr.text 0 "it's").IsWritable := .intro rfl fun _ h => by cases h
  have hbase : (Expr.name 0 "a").IsWritable := .intro rfl fun _ h => by cases h
  have hchain : (Expr.chain 0 (.text 0 "it's") [⟨"+", 0, .currentRow 0⟩]).IsWritable :=
    .intro rfl (by simpa [Expr.parts] using ⟨htext, hrow⟩)
  have hneg := Expr.IsWritable.intro (e := .neg 0 _) rfl (by simpa [Expr.parts] using hchain)
  exact Sentence.read_write ⟨true, false⟩
    (s := .expression (.fields 0 (.name 0 "a") ⟨true, [⟨"x", true, true, 0⟩],
      [.computed "y" 0 (.neg 0 (.chain 0 (.text 0 "it's") [⟨"+", 0, .currentRow 0⟩]))]⟩))
    (.intro rfl (by simpa [Expr.parts, FieldEntry.value?] using ⟨hbase, hneg⟩))

end RelQuery
