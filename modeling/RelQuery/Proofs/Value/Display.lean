/-
Displayed values are read back.

A boolean, a number without a sign, a text, a tuple or a relation with
rows is displayed as an expression of the language, provided that the
names in it are names (`IsLiteral`). Reading that text gives the literal
or the constructor the value stands for (`tree?`), and nothing is left
of the text.

A value may be displayed inside another one, so the induction speaks of
its text with something behind it: nothing at all, a comma or a closing
brace (`EndsValue`). Neither of them can go on a word, a number or a
text, neither is a selection or an operator, and this is all that a
value has to be told about what surrounds it. A row of a relation is
displayed like a tuple of its cells (`writeCells_eq`), which leaves one
argument for both. Of the three constructs that begin with a brace, the
character after the brace picks the table, and the token after the first
name in it rules out the heading of an empty table.
-/
import Mathlib.Data.List.Forall2
import RelQuery.Proofs.Grammar.Adjacent
import RelQuery.Proofs.Grammar.Inversion

namespace RelQuery

open Text Reading

namespace Value

-- ============================================================ values

/-- A value whose display is a literal or a constructor. A number has no
sign, unless it is zero. -/
inductive IsLiteral : Value → Prop where
  | bool (b : Bool) : IsLiteral (.bool b)
  | number {d : Decimal} : d.negative = false ∨ d.mantissa = 0 → IsLiteral (.number d)
  | text (s : String) : IsLiteral (.text s)
  | tuple {fields : List (String × Value)} : (∀ f ∈ fields, isName f.1 = true) →
      (∀ f ∈ fields, IsLiteral f.2) → IsLiteral (.tuple fields)
  | relation {h : Heading} {rows : List (List Value)} : rows ≠ [] →
      (∀ c ∈ h, isName c.name = true) → (∀ row ∈ rows, row.length = h.length) →
      (∀ row ∈ rows, ∀ v ∈ row, IsLiteral v) → IsLiteral (.relation h rows)

mutual

/-- The expression that stands for a value, without marks: a literal, a
row of the fields or a table of the rows. -/
def tree? : Value → Option Expr
  | .bool b => some (.bool 0 b)
  | .number d => some (.number 0 d.normalize)
  | .text s => some (.text 0 s)
  | .tuple fields => do return .row 0 (← fieldTrees? fields)
  | .relation h rows => do return .table 0 (← rowTrees? h rows)
  | _ => none

/-- The bindings that stand for fields, in their order. -/
def fieldTrees? : List (String × Value) → Option (List Binding)
  | [] => some []
  | (name, v) :: rest => do return ⟨name, ← tree? v⟩ :: (← fieldTrees? rest)

/-- The rows that stand for the rows of a relation. -/
def rowTrees? (h : Heading) : List (List Value) → Option (List (List Binding))
  | [] => some []
  | row :: rest => do return (← cellTrees? h row) :: (← rowTrees? h rest)

/-- The bindings that stand for the cells of a row, one cell for each
column. -/
def cellTrees? : List Column → List Value → Option (List Binding)
  | [], [] => some []
  | c :: h, v :: row => do return ⟨c.name, ← tree? v⟩ :: (← cellTrees? h row)
  | _, _ => none

end

/-- The cells of a row under the names of their columns. -/
def named (h : List Column) (row : List Value) : List (String × Value) :=
  (h.map (·.name)).zip row

/-- Fields are written one by one. -/
theorem writeFields_eq (fields : List (String × Value)) :
    writeFields fields = fields.map fun f => f.1 ++ " := " ++ f.2.write := by
  induction fields with
  | nil => rfl
  | cons f rest ih => rw [writeFields, ih, List.map_cons]

/-- Rows are written one by one, each in braces. -/
theorem writeRows_eq (h : Heading) (rows : List (List Value)) :
    writeRows h rows = rows.map fun row => braces (writeCells h row) := by
  induction rows with
  | nil => rfl
  | cons row rest ih => rw [writeRows, ih, List.map_cons]

/-- A row is displayed like a tuple. -/
theorem writeCells_eq (h : List Column) (row : List Value) :
    writeCells h row = writeFields (named h row) := by
  induction h generalizing row with
  | nil => cases row <;> rfl
  | cons c h ih =>
      cases row with
      | nil => rfl
      | cons v row =>
          rw [writeCells, ih]
          rfl

/-- A row has a tree if its cells, by the names of the columns, have one
each. -/
theorem cellTrees?_eq {h : List Column} {row : List Value} (hlength : row.length = h.length) :
    cellTrees? h row = fieldTrees? (named h row) := by
  induction h generalizing row with
  | nil =>
      cases row with
      | nil => rfl
      | cons v row => cases hlength
  | cons c h ih =>
      cases row with
      | nil => cases hlength
      | cons v row =>
          rw [cellTrees?, ih (Nat.succ.inj hlength)]
          rfl

/-- A number that is normalized keeps its sign, except that zero has none. -/
theorem normalize_negative {d : Decimal} (h : d.negative = false ∨ d.mantissa = 0) :
    d.normalize.negative = false := by
  unfold Decimal.normalize
  split
  · rfl
  · rename_i hzero
    exact h.resolve_right hzero

-- ============================================================= lists

/-- Texts with a comma and a space between them. -/
def listed : List (List Char) → List Char
  | [] => []
  | item :: rest => item ++ rest.flatMap (',' :: ' ' :: ·)

/-- A list in braces is its items, with a comma and a blank between them. -/
theorem braces_toList (items : List String) :
    (braces items).toList = '\x7b' :: (listed (items.map String.toList) ++ ['\x7d']) := by
  have hlisted (texts : List (List Char)) : [',', ' '].intercalate texts = listed texts := by
    induction texts with
    | nil => rfl
    | cons item rest ih =>
        cases rest with
        | nil => simp [listed, List.intercalate]
        | cons next rest =>
            rw [List.intercalate_cons_cons, ih]
            simp [listed]
  simp [braces, String.toList_intercalate, hlisted]

/-- An item is no longer than the list that it stands in. -/
theorem length_le_listed {item : List Char} {items : List (List Char)} (h : item ∈ items) :
    item.length ≤ (listed items).length := by
  obtain ⟨before, after, rfl⟩ := List.append_of_mem h
  cases before with
  | nil => simp [listed]
  | cons first before =>
      simp only [listed, List.cons_append, List.flatMap_append, List.flatMap_cons,
        List.length_append, List.length_cons]
      omega

end Value

namespace Reading

/-- What may stand behind a displayed value. -/
def EndsValue (text : List Char) : Prop :=
  ∀ c ∈ text.head?, c = ',' ∨ c = '\x7d'

namespace EndsValue

variable {text : List Char}

theorem brace (text : List Char) : EndsValue ('\x7d' :: text) := by
  rintro c ⟨⟩
  exact .inr rfl

theorem comma (text : List Char) : EndsValue (',' :: text) := by
  rintro c ⟨⟩
  exact .inl rfl

theorem nil : EndsValue [] := fun _ h => by cases h

/-- A property of characters that a comma and a brace do not have. -/
theorem head_any (h : EndsValue text) {p : Char → Bool} (hcomma : p ',' = false)
    (hbrace : p '\x7d' = false) : text.head?.any p = false := by
  cases text with
  | nil => rfl
  | cons c text =>
      rcases h c rfl with rfl | rfl
      · exact hcomma
      · exact hbrace

/-- What ends a value begins with neither a blank nor a comment. -/
theorem firm (h : EndsValue text) : Firm text := by
  intro c hc
  rcases h c hc with rfl | rfl
  · exact ⟨rfl, by decide⟩
  · exact ⟨rfl, by decide⟩

theorem leads (h : EndsValue text) : Leads text text := h.firm.leads

theorem head_ne (h : EndsValue text) {d : Char} (hcomma : d ≠ ',') (hbrace : d ≠ '\x7d') :
    text.head? ≠ some d := by
  intro hd
  exact (h d hd).elim hcomma hbrace

/-- No operator follows. -/
theorem infixOperator_declines (h : EndsValue text) : Declines infixOperator text := by
  refine Reading.infixOperator_declines ?_
  cases text with
  | nil => rfl
  | cons d text =>
      rcases h d rfl with rfl | rfl
      · rfl
      · rfl

/-- No selection follows either. -/
theorem point_declines (h : EndsValue text) : Declines (token ".") text :=
  token_declines (after?_eq_none rfl (h.head_ne (by decide) (by decide)))

end EndsValue

-- ======================================================= operands

variable {n : Nested} {a tail : List Char} {P : Expr → Prop}

/-- A primary alone is an expression. -/
theorem expressionOf_accepts (htail : EndsValue tail) (hnot : a.head? ≠ some 'n')
    (hminus : a.head? ≠ some '-') (h : Accepts (primary n) a tail P) :
    Accepts (expressionOf n) a tail P := by
  have hpostfixed : Accepts (postfixed n) a tail P :=
    h.bind fun base hbase => faces_position.bounded fun fuel _ =>
      faces_position.selections_stop fuel htail.point_declines hbase
  have hoperand : Accepts (operandOf n) a tail P := by
    refine (mark_accepts a).bind fun start _ => ?_
    refine (keyword_declines (after?_eq_none rfl hnot)).found.followedBy ?_
    exact (token_declines (after?_eq_none rfl hminus)).found.followedBy hpostfixed
  have hsteps : Accepts (bounded (steps (operandOf n))) tail tail (· = []) :=
    faces_position.bounded fun fuel _ =>
      faces_position.steps_stop fuel htail.infixOperator_declines
  refine (mark_accepts a).bind fun start _ => hoperand.bind fun first hfirst => ?_
  exact hsteps.followedBy (.result hfirst)

-- ============================================================= items

section Lists

variable {β γ : Type} {item : Reading β} {plain : β → γ} {texts : List (List Char)} {ys : List γ}

/-- The reader reads the text of an item as `y`, up to what `plain` takes
away, before anything that ends it. -/
structure ReadsText (item : Reading β) (plain : β → γ) (text : List Char) (y : γ) : Prop where
  firm : ∀ tail, Firm (text ++ tail)
  reads : ∀ tail, EndsValue tail → Accepts item (text ++ tail) tail fun x => plain x = y

/-- What separates items. -/
abbrev commaSpace : List Char := [',', ' ']

/-- A list after its first item goes on with a comma or ends. -/
theorem endsValue_remaining (texts : List (List Char)) (tail : List Char) :
    EndsValue (remaining commaSpace texts ('\x7d' :: tail)) := by
  cases texts with
  | nil => exact .brace tail
  | cons text texts => exact .comma _

theorem comma_declines (tail : List Char) : Declines comma ('\x7d' :: tail) :=
  token_declines (after?_eq_none (d := ',') rfl (by simp))

theorem ReadsText.inList {text : List Char} {y : γ} (h : ReadsText item plain text y)
    (tail : List Char) : InList Faces comma item plain commaSpace ('\x7d' :: tail) text y where
  first := fun texts => h.reads _ (endsValue_remaining texts tail)
  next := fun texts => (token_accepts "," (h.firm _).leads_space).bind fun _ _ =>
    h.reads _ (endsValue_remaining texts tail)

theorem listed_remaining (text : List Char) (texts : List (List Char)) (tail : List Char) :
    Value.listed (text :: texts) ++ '\x7d' :: tail
      = text ++ remaining commaSpace texts ('\x7d' :: tail) := by
  rw [Value.listed, List.append_assoc]
  rfl

/-- Items between commas, before the brace that closes their list. -/
theorem separated_accepts (h : List.Forall₂ (ReadsText item plain) texts ys)
    (hnone : ∀ tail, Declines item ('\x7d' :: tail)) (tail : List Char) :
    Accepts (separated comma item) (Value.listed texts ++ '\x7d' :: tail) ('\x7d' :: tail)
      fun xs => xs.map plain = ys := by
  cases h with
  | nil => exact (separated_readsAt_nil (hnone tail)).weaken fun xs hxs => by rw [hxs, List.map_nil]
  | cons hfirst hrest =>
      rw [listed_remaining]
      exact separated_readsAt faces_position (List.cons_ne_nil _ _) (comma_declines tail)
        (hfirst.inList tail) (hrest.imp fun _ _ h => h.inList tail)

end Lists

-- ========================================================== bindings

/-- The value is read back from its display as `tree`, up to marks. -/
structure IsShown (v : Value) (tree : Expr) : Prop where
  firm : ∀ tail, Firm (v.write.toList ++ tail)
  reads : ∀ (d : Nat) (tail : List Char), v.write.toList.length ≤ d → EndsValue tail →
    Accepts (expressionOf (nested d)) (v.write.toList ++ tail) tail (·.unmarked = tree)

/-- A field is read back as a binding. -/
structure FieldShown (f : String × Value) (b : Binding) : Prop where
  name : isName f.1 = true
  named : b.name = f.1
  shown : IsShown f.2 b.value

/-- A name begins with neither a blank nor a comment. -/
theorem Firm.ofName {x : String} (hx : isName x = true) (tail : List Char) :
    Firm (x.toList ++ tail) := by
  obtain ⟨c, v, hxc, hstart, -⟩ := isWord_cases (isName_cases hx).1
  rw [hxc]
  rintro d ⟨⟩
  refine ⟨isBlank_of_isNameChar ?_, ?_⟩
  · rw [isNameChar_eq, hstart, Bool.true_or]
  · rintro rfl
    cases hstart

/-- A field is read back as a binding if its value is. -/
theorem binding_readsText {f : String × Value} {b : Binding} (h : FieldShown f b) {d : Nat}
    (hd : f.2.write.toList.length < d) :
    ReadsText (binding (nested d)) Binding.unmarked (f.1 ++ " := " ++ f.2.write).toList b := by
  have htext (tail : List Char) : (f.1 ++ " := " ++ f.2.write).toList ++ tail
      = f.1.toList ++ ' ' :: (":=".toList ++ ' ' :: (f.2.write.toList ++ tail)) := by
    simp [String.toList_append]
  obtain ⟨d, rfl⟩ := Nat.exists_eq_succ_of_ne_zero (Nat.ne_zero_of_lt hd)
  refine ⟨fun tail => ?_, fun tail htail => ?_⟩
  · rw [htext]
    exact .ofName h.name _
  · rw [htext]
    have hsign : Firm (":=".toList ++ ' ' :: (f.2.write.toList ++ tail)) := by
      rintro c ⟨⟩
      exact ⟨rfl, by decide⟩
    refine (ident_accepts h.name hsign.leads_space rfl).followedBy ?_
    refine (expect_accepts ":=" (h.shown.firm tail).leads_space).bind fun _ _ => ?_
    refine (h.shown.reads d tail (Nat.le_of_lt_succ hd) htail).required.bind fun e he => ?_
    obtain ⟨x, value⟩ := b
    exact ReadsAt.result (congrArg₂ Binding.mk h.named.symm he)

/-- The texts of fields, one by one. -/
def fieldTexts (fields : List (String × Value)) : List (List Char) :=
  (Value.writeFields fields).map String.toList

/-- The value of a field is shorter than the list of fields. -/
theorem length_lt_fieldTexts {fields : List (String × Value)} {f : String × Value}
    (hf : f ∈ fields) : f.2.write.toList.length < (Value.listed (fieldTexts fields)).length := by
  have hmem : (f.1 ++ " := " ++ f.2.write).toList ∈ fieldTexts fields := by
    rw [fieldTexts, Value.writeFields_eq, List.map_map]
    exact List.mem_map_of_mem hf
  have hle := Value.length_le_listed hmem
  simp only [String.toList_append, List.length_append] at hle
  have hsign : " := ".toList.length = 4 := rfl
  omega

/-- Fields are read back as bindings, before their closing brace. -/
theorem bindings_accepts {fields : List (String × Value)} {bs : List Binding}
    (h : List.Forall₂ FieldShown fields bs) {d : Nat}
    (hd : (Value.listed (fieldTexts fields)).length ≤ d) (tail : List Char) :
    Accepts (bindings (nested d)) (Value.listed (fieldTexts fields) ++ '\x7d' :: tail)
      ('\x7d' :: tail) (unmarkedBindings · = bs) := by
  have hitems : List.Forall₂ (ReadsText (binding (nested d)) Binding.unmarked)
      (fieldTexts fields) bs := by
    rw [fieldTexts, Value.writeFields_eq, List.map_map, List.forall₂_map_left_iff]
    have hlength : ∀ f ∈ fields, f.2.write.toList.length < d :=
      fun f hf => Nat.lt_of_lt_of_le (length_lt_fieldTexts hf) hd
    exact ((List.forall₂_and_left fields bs).mpr ⟨hlength, h⟩).imp
      fun f b hfb => binding_readsText hfb.2 hfb.1
  simp only [unmarkedBindings_eq]
  exact separated_accepts hitems (fun tail => (ident_declines rfl).bind _) tail

/-- A list of fields begins with a name or is empty. -/
theorem fieldTexts_cases {fields : List (String × Value)} {bs : List Binding}
    (h : List.Forall₂ FieldShown fields bs) : Value.listed (fieldTexts fields) = [] ∨
      ∃ x rest, isName x = true ∧
        Value.listed (fieldTexts fields) = x.toList ++ ' ' :: ':' :: '=' :: rest := by
  cases h with
  | nil => exact .inl rfl
  | @cons f b fields bs hfirst hrest =>
      refine .inr ⟨f.1, ' ' :: (f.2.write.toList ++
        (fieldTexts fields).flatMap (',' :: ' ' :: ·)), hfirst.name, ?_⟩
      simp [fieldTexts, Value.writeFields, Value.listed]

/-- Fields in braces begin with neither a blank nor a comment. -/
theorem Firm.fields {fields : List (String × Value)} {bs : List Binding}
    (h : List.Forall₂ FieldShown fields bs) (tail : List Char) :
    Firm (Value.listed (fieldTexts fields) ++ '\x7d' :: tail) := by
  rcases fieldTexts_cases h with hnil | ⟨x, rest, hx, hcons⟩
  · rw [hnil]
    exact (EndsValue.brace tail).firm
  · rw [hcons, List.append_assoc]
    exact .ofName hx _

/-- No column of an empty table stands ahead of fields. -/
theorem columnAhead_accepts {fields : List (String × Value)} {bs : List Binding}
    (h : List.Forall₂ FieldShown fields bs) (tail : List Char) :
    Accepts columnAhead (Value.listed (fieldTexts fields) ++ '\x7d' :: tail)
      (Value.listed (fieldTexts fields) ++ '\x7d' :: tail) (· = false) := by
  intro c hc
  refine ⟨false, c, ?_, rfl, hc⟩
  unfold columnAhead
  rcases fieldTexts_cases h with hnil | ⟨x, rest, hx, hcons⟩
  · rw [hnil] at hc
    obtain ⟨m, hrun, -⟩ := ident_declines (a := '\x7d' :: tail) rfl c hc
    rw [hrun]
  · rw [hcons, List.append_assoc] at hc
    have hsign : Firm (':' :: '=' :: rest ++ '\x7d' :: tail) := by
      rintro d ⟨⟩
      exact ⟨rfl, by decide⟩
    obtain ⟨y, c', hrun, -, hc'⟩ := ident_accepts hx hsign.leads_space rfl c hc
    rw [hrun]
    dsimp only
    rw [hc']
    rfl

-- ==================================================== rows and tables

theorem braces_cons (items : List String) (tail : List Char) :
    (Value.braces items).toList ++ tail
      = '\x7b' :: (Value.listed (items.map String.toList) ++ '\x7d' :: tail) := by
  rw [Value.braces_toList, List.cons_append, List.append_assoc]
  rfl

theorem length_braces (items : List String) :
    (Value.braces items).toList.length = (Value.listed (items.map String.toList)).length + 2 := by
  rw [Value.braces_toList]
  simp

/-- What begins with a brace is a row or a table. -/
theorem primary_braces_accepts {n : Nested} {a b : List Char} {P : Expr → Prop}
    (h : ∀ start, Accepts (braces n start) ('\x7b' :: a) b P) :
    Accepts (primary n) ('\x7b' :: a) b P :=
  (mark_accepts _).bind fun start _ => (ahead_accepts _).followedBy (h start)

theorem firm_brace (tail : List Char) : Firm ('\x7b' :: tail) := by
  rintro c ⟨⟩
  exact ⟨rfl, by decide⟩

/-- A tuple is shown as a row if its fields are shown as bindings. -/
theorem isShown_tuple {fields : List (String × Value)} {bs : List Binding}
    (h : List.Forall₂ FieldShown fields bs) : IsShown (.tuple fields) (.row 0 bs) := by
  refine ⟨fun tail => ?_, fun d tail hd htail => ?_⟩
  · rw [Value.write, braces_cons]
    exact firm_brace _
  rw [Value.write, length_braces] at hd
  rw [Value.write, braces_cons]
  refine expressionOf_accepts htail (by simp) (by simp) (primary_braces_accepts fun start => ?_)
  have hbindings := bindings_accepts h (Nat.le_of_add_right_le hd) tail
  have hfirm := Firm.fields h tail
  refine (token_accepts "\x7b" hfirm.leads).bind fun _ _ => (ahead_accepts _).followedBy ?_
  cases h with
  | nil => exact (token_accepts "\x7d" htail.leads).bind fun _ _ => ReadsAt.result rfl
  | @cons f b fields bs hfirst hrest =>
      have hhead {c : Char} (hc : isNameStart c = false) :
          (Value.listed (fieldTexts (f :: fields)) ++ '\x7d' :: tail).head? ≠ some c := by
        obtain ⟨d, v, hfd, hstart, -⟩ := isWord_cases (isName_cases hfirst.name).1
        simp only [fieldTexts, Value.writeFields, Value.listed, List.map_cons,
          String.toList_append, hfd, List.cons_append, List.head?_cons, ne_eq, Option.some.injEq]
        rintro rfl
        rw [hstart] at hc
        cases hc
      split
      · exact absurd ‹_› (hhead rfl)
      · exact absurd ‹_› (hhead rfl)
      · refine hbindings.bind fun cs hcs => ?_
        refine (close_accepts "\x7d" htail.leads).bind fun _ _ => ReadsAt.result ?_
        rw [Expr.unmarked, hcs]

-- ============================================================ tables

/-- A row of a relation is read back as a row of a table. -/
def RowShown (h : Heading) (row : List Value) (bs : List Binding) : Prop :=
  List.Forall₂ FieldShown (Value.named h row) bs

/-- The texts of rows, one by one. -/
def rowTexts (h : Heading) (rows : List (List Value)) : List (List Char) :=
  (Value.writeRows h rows).map String.toList

/-- Rows are written by the names of their columns. -/
theorem rowTexts_eq (h : Heading) (rows : List (List Value)) :
    rowTexts h rows = rows.map fun row =>
      '\x7b' :: (Value.listed (fieldTexts (Value.named h row)) ++ ['\x7d']) := by
  rw [rowTexts, Value.writeRows_eq, List.map_map]
  refine List.map_congr_left fun row _ => ?_
  rw [Function.comp_apply, Value.braces_toList, Value.writeCells_eq]
  rfl

/-- A row and its braces are no longer than the list of rows. -/
theorem length_le_rowTexts {h : Heading} {row : List Value} {rows : List (List Value)}
    (hrow : row ∈ rows) : (Value.listed (fieldTexts (Value.named h row))).length + 2
      ≤ (Value.listed (rowTexts h rows)).length := by
  have hmem : '\x7b' :: (Value.listed (fieldTexts (Value.named h row)) ++ ['\x7d'])
      ∈ rowTexts h rows := by
    rw [rowTexts_eq]
    exact List.mem_map.mpr ⟨row, hrow, rfl⟩
  have hle := Value.length_le_listed hmem
  simp only [List.length_append, List.length_cons, List.length_nil] at hle
  omega

/-- The rows of a relation are read back, up to the brace that closes it. -/
theorem rowsRest_accepts {h : Heading} {rows : List (List Value)} {bss : List (List Binding)}
    (hrows : List.Forall₂ (RowShown h) rows bss) {d : Nat}
    (hd : ∀ row ∈ rows, (Value.listed (fieldTexts (Value.named h row))).length ≤ d)
    (tail : List Char) :
    Accepts (bounded (rowsRest (nested d)))
      (remaining commaSpace (rowTexts h rows) ('\x7d' :: tail)) ('\x7d' :: tail)
      (unmarkedRows · = bss) := by
  refine rowsRest_readsAt faces_position (List.cons_ne_nil _ _) (comma_declines tail) ?_
  rw [rowTexts_eq, List.forall₂_map_left_iff]
  refine ((List.forall₂_and_left rows bss).mpr ⟨hd, hrows⟩).imp fun row bs hrow => ?_
  obtain ⟨hlength, hshown⟩ := hrow
  refine ⟨fun texts => token_accepts "," (firm_brace _).leads_space, fun texts => ?_⟩
  rw [List.cons_append, List.append_assoc]
  have hmore := endsValue_remaining texts tail
  exact ⟨_, _, expect_accepts "\x7b" (Firm.fields hshown _).leads,
    bindings_accepts hshown hlength _, close_accepts "\x7d" hmore.leads⟩

/-- A relation is shown as a table if its rows are shown as rows. -/
theorem isShown_relation {h : Heading} {rows : List (List Value)} {bss : List (List Binding)}
    (hsome : rows ≠ []) (hrows : List.Forall₂ (RowShown h) rows bss) :
    IsShown (.relation h rows) (.table 0 bss) := by
  refine ⟨fun tail => ?_, fun d tail hd htail => ?_⟩
  · rw [Value.write, braces_cons]
    exact firm_brace _
  rw [Value.write, length_braces] at hd
  rw [Value.write, braces_cons]
  refine expressionOf_accepts htail (by simp) (by simp) (primary_braces_accepts fun start => ?_)
  -- every row is shorter than the relation, so the same depth will do
  have hlength : ∀ row ∈ rows, (Value.listed (fieldTexts (Value.named h row))).length ≤ d := by
    intro row hrow
    have hle := length_le_rowTexts (h := h) hrow
    change (Value.listed (rowTexts h rows)).length + 2 ≤ d at hd
    omega
  -- the first row tells the reader that this is a table
  cases hrows with
  | nil => exact absurd rfl hsome
  | @cons row bs rows bss hrow hrest =>
      obtain ⟨hfirst, hothers⟩ := List.forall_mem_cons.mp hlength
      show Accepts _ ('\x7b' :: (Value.listed (rowTexts h (row :: rows)) ++ '\x7d' :: tail)) _ _
      rw [rowTexts_eq, List.map_cons, ← rowTexts_eq, listed_remaining]
      simp only [List.cons_append, List.append_assoc, List.nil_append]
      have hmore := endsValue_remaining (rowTexts h rows) tail
      -- brace, first row, brace, then the others up to the closing brace
      refine (token_accepts "\x7b" (firm_brace _).leads).bind fun _ _ =>
        (ahead_accepts _).followedBy ?_
      refine (token_accepts "\x7b" (Firm.fields hrow _).leads).bind fun _ _ => ?_
      refine (columnAhead_accepts hrow _).followedBy ?_
      refine (bindings_accepts hrow hfirst _).bind fun cs hcs => ?_
      refine (close_accepts "\x7d" hmore.leads).bind fun _ _ => ?_
      refine (rowsRest_accepts hrest hothers tail).bind fun css hcss => ?_
      refine (close_accepts "\x7d" htail.leads).bind fun _ _ => .result ?_
      rw [Expr.unmarked, unmarkedRows, hcs, hcss]

-- ========================================================== literals

/-- A text is shown in quotes. -/
theorem isShown_text (s : String) : IsShown (.text s) (.text 0 s) := by
  have hcons (tail : List Char) : (Value.quote s).toList ++ tail
      = '\'' :: (Value.quoteChars s.toList ++ ['\''] ++ tail) := by
    rw [quote_toList, List.cons_append]
  refine ⟨fun tail => ?_, fun d tail hd htail => ?_⟩
  · rw [Value.write, hcons]
    rintro c ⟨⟩
    exact ⟨rfl, by decide⟩
  have hquoted := quoted_accepts s htail.leads (htail.head_ne (by decide) (by decide))
  rw [Value.write]
  rw [hcons] at hquoted ⊢
  refine expressionOf_accepts htail (by simp) (by simp) ?_
  refine (mark_accepts _).bind fun start _ => (ahead_accepts _).followedBy ?_
  refine hquoted.followedBy (ReadsAt.result ?_)
  rw [Expr.unmarked, String.ofList_toList]

/-- A number is shown without the zeros that it does not need. -/
theorem isShown_number {d : Decimal} (hd : d.normalize.negative = false) :
    IsShown (.number d) (.number 0 d.normalize) := by
  obtain ⟨c, w, hcons, hdigit⟩ := Decimal.write_cons hd
  have hne {e : Char} (he : e.isDigit = false) : c ≠ e := by
    rintro rfl
    rw [hdigit] at he
    cases he
  refine ⟨fun tail => ?_, fun depth tail hdepth htail => ?_⟩
  · rw [Value.write, hcons]
    rintro e ⟨⟩
    refine ⟨isBlank_of_isNameChar ?_, hne rfl⟩
    rw [isNameChar_eq, hdigit, Bool.or_true]
  have hend : ∀ e ∈ tail.head?, e.isDigit = false ∧ e ≠ '.' := by
    intro e he
    rcases htail e he with rfl | rfl
    · exact ⟨rfl, by decide⟩
    · exact ⟨rfl, by decide⟩
  have hnumber := number_accepts hd htail.leads hend
  rw [Value.write]
  rw [hcons, List.cons_append] at hnumber ⊢
  refine expressionOf_accepts htail (by simpa using hne rfl) (by simpa using hne rfl) ?_
  refine (mark_accepts _).bind fun start _ => (ahead_accepts _).followedBy ?_
  split
  case h_6 =>
    rename_i heq
    obtain ⟨rfl, -⟩ := List.cons.inj heq
    rw [if_pos hdigit]
    exact hnumber.followedBy (ReadsAt.result rfl)
  case h_7 heq => cases heq
  -- a digit is none of the signs that the other primaries begin with
  all_goals
    rename_i heq
    exact absurd (List.cons.inj heq).1 (hne rfl)

/-- A truth value is shown as its word. -/
theorem isShown_bool (b : Bool) : IsShown (.bool b) (.bool 0 b) := by
  cases b with
  | true =>
      refine ⟨fun tail => ?_, fun d tail hd htail => ?_⟩
      · rintro c ⟨⟩
        exact ⟨by decide, by decide⟩
      have htrue := keyword_accepts "true" htail.leads (htail.head_any rfl rfl)
      refine expressionOf_accepts htail (by simp [Value.write]) (by simp [Value.write]) ?_
      refine (mark_accepts _).bind fun start _ => (ahead_accepts _).followedBy ?_
      exact htrue.found.followedBy (ReadsAt.result rfl)
  | false =>
      refine ⟨fun tail => ?_, fun d tail hd htail => ?_⟩
      · rintro c ⟨⟩
        exact ⟨by decide, by decide⟩
      have hfalse := keyword_accepts "false" htail.leads (htail.head_any rfl rfl)
      refine expressionOf_accepts htail (by simp [Value.write]) (by simp [Value.write]) ?_
      refine (mark_accepts _).bind fun start _ => (ahead_accepts _).followedBy ?_
      refine (keyword_declines rfl).found.followedBy ?_
      exact hfalse.found.followedBy (ReadsAt.result rfl)

end Reading

namespace Value

-- =========================================================== display

variable {v : Value}

/-- Fields that are read back each are read back together. -/
theorem fields_shown {fields : List (String × Value)}
    (hnames : ∀ f ∈ fields, isName f.1 = true)
    (hvalues : ∀ f ∈ fields, ∃ tree, f.2.tree? = some tree ∧ IsShown f.2 tree) :
    ∃ bs, fieldTrees? fields = some bs ∧ List.Forall₂ FieldShown fields bs := by
  induction fields with
  | nil => exact ⟨[], rfl, .nil⟩
  | cons f rest ih =>
      obtain ⟨tree, htree, hshown⟩ := hvalues f List.mem_cons_self
      obtain ⟨bs, hbs, hrest⟩ := ih (fun g hg => hnames g (List.mem_cons_of_mem f hg))
        (fun g hg => hvalues g (List.mem_cons_of_mem f hg))
      refine ⟨⟨f.1, tree⟩ :: bs, ?_, .cons ⟨hnames f List.mem_cons_self, rfl, hshown⟩ hrest⟩
      rw [fieldTrees?, htree, hbs]
      rfl

/-- The rows of a relation are shown as rows of a table, cell by cell. -/
theorem rows_shown {h : Heading} {rows : List (List Value)}
    (hnames : ∀ c ∈ h, isName c.name = true) (hlengths : ∀ row ∈ rows, row.length = h.length)
    (hvalues : ∀ row ∈ rows, ∀ v ∈ row, ∃ tree, v.tree? = some tree ∧ IsShown v tree) :
    ∃ bss, rowTrees? h rows = some bss ∧ List.Forall₂ (RowShown h) rows bss := by
  induction rows with
  | nil => exact ⟨[], rfl, .nil⟩
  | cons row rest ih =>
      obtain ⟨bss, hbss, hrest⟩ := ih (fun r hr => hlengths r (List.mem_cons_of_mem row hr))
        (fun r hr => hvalues r (List.mem_cons_of_mem row hr))
      have hcolumns : ∀ f ∈ named h row, isName f.1 = true := by
        rintro ⟨x, v⟩ hf
        obtain ⟨c, hc, rfl⟩ := List.mem_map.mp (List.of_mem_zip hf).1
        exact hnames c hc
      have hcells : ∀ f ∈ named h row, ∃ tree, f.2.tree? = some tree ∧ IsShown f.2 tree :=
        fun f hf => hvalues row List.mem_cons_self f.2 (List.of_mem_zip hf).2
      obtain ⟨bs, hbs, hrow⟩ := fields_shown hcolumns hcells
      refine ⟨bs :: bss, ?_, .cons hrow hrest⟩
      rw [rowTrees?, cellTrees?_eq (hlengths row List.mem_cons_self), hbs, hbss]
      rfl

/-- A literal value has a tree and is shown as it. -/
theorem IsLiteral.shown (hv : v.IsLiteral) : ∃ tree, v.tree? = some tree ∧ IsShown v tree := by
  induction hv with
  | bool b => exact ⟨_, rfl, isShown_bool b⟩
  | number hd => exact ⟨_, rfl, isShown_number (normalize_negative hd)⟩
  | text s => exact ⟨_, rfl, isShown_text s⟩
  | tuple hnames _ ih =>
      obtain ⟨bs, hbs, hfields⟩ := fields_shown hnames ih
      refine ⟨.row 0 bs, ?_, isShown_tuple hfields⟩
      rw [tree?, hbs]
      rfl
  | relation hsome hnames hlengths _ ih =>
      obtain ⟨bss, hbss, hrows⟩ := rows_shown hnames hlengths ih
      refine ⟨.table 0 bss, ?_, isShown_relation hsome hrows⟩
      rw [tree?, hbss]
      rfl

/-- No sentence but an expression begins like a displayed value. -/
theorem IsLiteral.opens (hv : v.IsLiteral) :
    Declines (keyword "type") v.write.toList ∧ Declines (keyword "def") v.write.toList ∧
      Declines boundName v.write.toList := by
  -- what begins with no letter is neither a word nor a name
  have hsign {c : Char} {w : List Char} (hc : isNameStart c = false) :
      Declines (keyword "type") (c :: w) ∧ Declines (keyword "def") (c :: w) ∧
        Declines boundName (c :: w) := by
    have hne {d : Char} (hd : isNameStart d = true) : (c :: w).head? ≠ some d := by
      rintro ⟨⟩
      rw [hd] at hc
      cases hc
    exact ⟨keyword_declines (after?_eq_none rfl (hne rfl)),
      keyword_declines (after?_eq_none rfl (hne rfl)), (ident_declines (a := c :: w) hc).bind _⟩
  cases hv with
  -- only truth values begin with letters, and their words are reserved
  | bool b =>
      cases b with
      | true =>
          have hident : Declines ident ("true".toList ++ []) :=
            ident_declines_reserved rfl rfl rfl
          exact ⟨keyword_declines rfl, keyword_declines rfl, hident.bind _⟩
      | false =>
          have hident : Declines ident ("false".toList ++ []) :=
            ident_declines_reserved rfl rfl rfl
          exact ⟨keyword_declines rfl, keyword_declines rfl, hident.bind _⟩
  | @number d hd =>
      obtain ⟨c, w, hcons, hdigit⟩ := Decimal.write_cons (normalize_negative hd)
      rw [write, hcons]
      exact hsign (isNameStart_of_isDigit hdigit)
  | text s =>
      rw [write, quote_toList]
      exact hsign rfl
  | tuple hnames hvalues =>
      rw [write, braces_toList]
      exact hsign rfl
  | relation hsome hnames hlengths hvalues =>
      rw [write, braces_toList]
      exact hsign rfl

/-- The display of a literal value is an expression: the literal itself,
or the row or table of what is displayed in it. -/
theorem display_reads_back (hv : v.IsLiteral) : ∃ e,
    Sentence.read v.write.toList = .ok (.expression e) ∧ v.tree? = some e.unmarked := by
  obtain ⟨tree, htree, hfirm, hreads⟩ := hv.shown
  obtain ⟨htype, hdef, hbound⟩ := hv.opens
  -- the depth of the reader is bounded by the length of the text, which is
  -- enough
  have hexpression : Accepts expression v.write.toList [] (·.unmarked = tree) := by
    refine faces_position.bounded fun d hd => ?_
    have hrun := hreads d [] hd .nil
    rw [List.append_nil] at hrun
    exact hrun
  have hsentence : Accepts sentence v.write.toList []
      fun s => ∃ e, s = .expression e ∧ e.unmarked = tree := by
    -- the text begins like no other sentence
    refine (mark_accepts _).bind fun start _ => ?_
    refine htype.found.followedBy (hdef.found.followedBy (hbound.optional.followedBy ?_))
    exact hexpression.bind fun e he => ReadsAt.result ⟨e, rfl, he⟩
  have hstart := hfirm []
  rw [List.append_nil] at hstart
  obtain ⟨s, c, hrun, ⟨e, rfl, he⟩, hend⟩ := hsentence ⟨0, v.write.toList⟩ (hstart.leads 0)
  refine ⟨e, ?_, ?_⟩
  · unfold Sentence.read
    rw [hrun]
    dsimp only
    rw [hend]
    rfl
  · rw [htree, he]

/-- A text with a quote and a comment marker, in a row of a table. -/
theorem display_reads_back_nested : ∃ e,
    Sentence.read (("\x7b\x7bx := 1.5, y := \x7bs := 'it''s -- so', b := true\x7d\x7d, " ++
      "\x7bx := 0, y := \x7b\x7d\x7d\x7d").toList) = .ok (.expression e) ∧
      e.unmarked = .table 0 [[⟨"x", .number 0 ⟨false, 15, 1, by decide, by decide⟩⟩,
        ⟨"y", .row 0 [⟨"s", .text 0 "it's -- so"⟩, ⟨"b", .bool 0 true⟩]⟩],
        [⟨"x", .number 0 .zero⟩, ⟨"y", .row 0 []⟩]] := by
  let v : Value := .relation [⟨"x", .number⟩, ⟨"y", .any⟩]
    [[.number ⟨false, 150, 2, by decide, by decide⟩,
      .tuple [("s", .text "it's -- so"), ("b", .bool true)]],
      [.number ⟨true, 0, 3, by decide, by decide⟩, .tuple []]]
  have hv : v.IsLiteral := by
    refine .relation (by simp) (by decide) (by simp) ?_
    simp only [List.mem_cons, List.not_mem_nil, or_false, forall_eq_or_imp, forall_eq]
    exact ⟨⟨.number (.inl rfl), .tuple (by decide) (by simpa using ⟨.text _, .bool _⟩)⟩,
      .number (.inr rfl), .tuple (by simp) (by simp)⟩
  obtain ⟨e, hread, htree⟩ := display_reads_back hv
  exact ⟨e, hread, (Option.some.inj htree).symm⟩

end Value

end RelQuery
