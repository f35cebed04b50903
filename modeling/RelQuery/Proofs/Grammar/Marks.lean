/-
The marks of a sentence, and the tokens that stand at them.

A mark is the byte offset of the first token of the construct that
carries it: a name, a word, a sign, a quote or a digit. `Opens` says of
a tree and a text that the text goes on with that token at each mark. An
infix chain begins where its first operand does. That operand begins
with a parenthesis around it, or else with its leading part, which is
the innermost base of its selections (`Expr.lead`). A time in the
tree is one that a quotation can be read as.

A tree that opens so in a text has its marks at characters of that text.
-/
import RelQuery.Proofs.Grammar.Writing
import RelQuery.Proofs.Text.Boundary

namespace RelQuery

-- ================================================= marks in a tree

mutual

/-- The marks in a written type. -/
def TypeExpr.marks : TypeExpr → List Nat
  | .named _ mark => [mark]
  | .tuple columns => columnMarks columns
  | .relation columns => columnMarks columns

/-- The marks in the types of written columns. -/
def columnMarks : List (String × TypeExpr) → List Nat
  | [] => []
  | (_, type) :: rest => type.marks ++ columnMarks rest

end

/-- The mark of an entry. -/
def FieldEntry.mark : FieldEntry → Nat
  | .plain _ mark => mark
  | .computed _ mark _ => mark

namespace Expr

/-- An expression in another one, at any depth. -/
inductive Inside (x : Expr) : Expr → Prop where
  | here : Inside x x
  | under {part e : Expr} : part ∈ e.parts → Inside x part → Inside x e

/-- Every expression in an expression has a property, the whole one
included. -/
def Everywhere (P : Expr → Prop) (e : Expr) : Prop :=
  ∀ x : Expr, x.Inside e → P x

/-- A property holds in a tree if it does at its root and in every part. -/
theorem everywhere_iff {P : Expr → Prop} {e : Expr} :
    e.Everywhere P ↔ P e ∧ ∀ part ∈ e.parts, part.Everywhere P := by
  constructor
  · exact fun h => ⟨h e .here, fun part hpart x hx => h x (.under hpart hx)⟩
  · rintro ⟨he, hparts⟩ x hx
    cases hx with
    | here => exact he
    | under hpart hx => exact hparts _ hpart x hx

/-- What holds everywhere in a tree holds everywhere in its parts. -/
theorem Everywhere.part {P : Expr → Prop} {e part : Expr} (h : e.Everywhere P)
    (hpart : part ∈ e.parts) : part.Everywhere P :=
  (everywhere_iff.mp h).2 part hpart

/-- What holds everywhere in a tree holds wherever it is inside. -/
theorem Everywhere.inside {P : Expr → Prop} {x e : Expr} (h : e.Everywhere P) (hx : x.Inside e) :
    x.Everywhere P := by
  induction hx with
  | here => exact h
  | under hpart _ ih => exact ih (h.part hpart)

/-- The marks that an expression adds to those of its parts. -/
def ownMarks : Expr → List Nat
  | .chain mark _ steps => mark :: steps.map (·.mark)
  | .fields mark _ list => mark :: (list.order.map (·.mark) ++ list.entries.map FieldEntry.mark)
  | .emptyTable mark columns => mark :: columnMarks columns
  | e => [e.mark]

/-- The operators of an infix chain. -/
def operators : Expr → List String
  | .chain _ _ steps => steps.map (·.op)
  | _ => []

/-- What an expression adds to its parts: marks that satisfy `P`, and
infix operators only. -/
structure IsPlaced (P : Nat → Prop) (e : Expr) : Prop where
  marks : ∀ m ∈ e.ownMarks, P m
  operators : ∀ op ∈ e.operators, isInfix op = true

/-- Where the leading part of an expression is marked. -/
def lead : Expr → Nat
  | .member _ base _ | .restrict _ base _ | .fields _ base _ => base.lead
  | e => e.mark

theorem IsPlaced.mono {P Q : Nat → Prop} {e : Expr} (h : e.IsPlaced P) (hPQ : ∀ m, P m → Q m) :
    e.IsPlaced Q where
  marks := fun m hm => hPQ m (h.marks m hm)
  operators := h.operators

end Expr

namespace Sentence

/-- The expression in a sentence. -/
def expression? : Sentence → Option Expr
  | .expression value | .assign _ _ value | .define _ _ _ _ value => some value
  | .typeDef .. => none

/-- The marks of a sentence outside its expression. -/
def ownMarks : Sentence → List Nat
  | .typeDef mark _ supertype components =>
    mark :: (supertype.toList.map (·.2) ++ columnMarks components)
  | .define mark _ params returns _ =>
    mark :: (columnMarks params ++ returns.toList.flatMap TypeExpr.marks)
  | .assign mark _ _ => [mark]
  | .expression _ => []

/-- All marks of a sentence satisfy `P`, and its chains have infix
operators only. -/
structure IsPlaced (P : Nat → Prop) (s : Sentence) : Prop where
  marks : ∀ m ∈ s.ownMarks, P m
  expression : ∀ e ∈ s.expression?, e.Everywhere (Expr.IsPlaced P)

theorem IsPlaced.mono {P Q : Nat → Prop} {s : Sentence} (h : s.IsPlaced P)
    (hPQ : ∀ m, P m → Q m) : s.IsPlaced Q where
  marks := fun m hm => hPQ m (h.marks m hm)
  expression := fun e he x hx => (h.expression e he x hx).mono hPQ

end Sentence

-- ================================================= tokens at marks

namespace Text

/-- At the byte offset a character of the text begins. -/
def IsCharStart (text : List Char) (offset : Nat) : Prop :=
  offset < byteLength text ∧ IsBoundary text offset

/-- At the mark the text goes on with a token. -/
structure TokenAt (text : List Char) (mark : Nat) (token : List Char) : Prop where
  nonempty : token ≠ []
  stands : StandsAt text mark token

theorem TokenAt.isCharStart {text token : List Char} {mark : Nat} (h : TokenAt text mark token) :
    IsCharStart text mark :=
  ⟨h.stands.lt_byteLength h.nonempty, h.stands.isBoundary⟩

end Text

open Text (TokenAt IsCharStart)

mutual

/-- At the mark of each name in a written type stands the name. -/
def TypeExpr.Opens (text : List Char) : TypeExpr → Prop
  | .named name mark => TokenAt text mark name.toList
  | .tuple columns => columnsOpen text columns
  | .relation columns => columnsOpen text columns

/-- At the mark of each name in the types of written columns stands the
name. -/
def columnsOpen (text : List Char) : List (String × TypeExpr) → Prop
  | [] => True
  | (_, type) :: rest => type.Opens text ∧ columnsOpen text rest

end

theorem columnsOpen_iff {text : List Char} {columns : List (String × TypeExpr)} :
    columnsOpen text columns ↔ ∀ c ∈ columns, c.2.Opens text := by
  induction columns with
  | nil => simp [columnsOpen]
  | cons c rest ih => rw [columnsOpen, ih, List.forall_mem_cons]

/-- An ordering key opens with its signs, if it has any, and with its
name otherwise. -/
def OrderKey.Opens (text : List Char) (key : OrderKey) : Prop :=
  TokenAt text key.mark
    (if key.grouped then ['%'] else if key.descending then ['-'] else key.name.toList)

/-- A field opens with its name. -/
def FieldEntry.Opens (text : List Char) (entry : FieldEntry) : Prop :=
  TokenAt text entry.mark entry.name.toList

namespace Expr

/-- An expression begins at the offset, with a parenthesis around it or
with its leading part. -/
def BeginsAt (text : List Char) (offset : Nat) (e : Expr) : Prop :=
  TokenAt text offset ['('] ∨ offset = e.lead

/-- At the marks that an expression adds to those of its parts stand
their tokens. The moment of a time is the one that some text reads as. -/
def Opens (text : List Char) : Expr → Prop
  | .number mark _ => ∃ digit : Char, digit.isDigit = true ∧ TokenAt text mark [digit]
  | .text mark _ => TokenAt text mark ['\'']
  | .bool mark value => TokenAt text mark (if value then "true" else "false").toList
  | .time mark moment => TokenAt text mark ['t', '\''] ∧
    ∃ quotation, Moment.read? quotation = some moment
  | .name mark x => TokenAt text mark x.toList
  | .currentRow mark => TokenAt text mark ['@']
  | .call mark x _ => TokenAt text mark x.toList
  | .fold mark _ _ => TokenAt text mark "fold".toList
  | .chain mark first steps =>
    first.BeginsAt text mark ∧ ∀ s ∈ steps, isInfix s.op = true ∧ TokenAt text s.mark s.op.toList
  | .not mark _ => TokenAt text mark "not".toList
  | .neg mark _ => TokenAt text mark ['-']
  | .member mark _ _ => TokenAt text mark ['.']
  | .restrict mark _ _ => TokenAt text mark ['.']
  | .fields mark _ list => TokenAt text mark ['.'] ∧
    (∀ key ∈ list.order, key.Opens text) ∧ ∀ entry ∈ list.entries, entry.Opens text
  | .row mark _ => TokenAt text mark ['\x7b']
  | .table mark _ => TokenAt text mark ['\x7b']
  | .emptyTable mark columns => TokenAt text mark ['\x7b'] ∧ columnsOpen text columns
  | .block mark _ _ => TokenAt text mark "do".toList

end Expr

/-- At every mark of a sentence stands its token. -/
def Sentence.Opens (text : List Char) : Sentence → Prop
  | .typeDef mark _ supertype components => TokenAt text mark "type".toList ∧
    (∀ s ∈ supertype, TokenAt text s.2 s.1.toList) ∧ columnsOpen text components
  | .define mark _ params returns body => TokenAt text mark "def".toList ∧
    columnsOpen text params ∧ (∀ t ∈ returns, t.Opens text) ∧ body.Everywhere (Expr.Opens text)
  | .assign mark name value => TokenAt text mark name.toList ∧ value.Everywhere (Expr.Opens text)
  | .expression value => value.Everywhere (Expr.Opens text)

/-- The tokens of the expression in a sentence. -/
theorem Sentence.Opens.expression {text : List Char} {s : Sentence} (h : s.Opens text) :
    ∀ e ∈ s.expression?, e.Everywhere (Expr.Opens text) := by
  cases s with
  | typeDef mark name supertype components => exact nofun
  | define mark name params returns body =>
      rintro _ ⟨⟩
      exact h.2.2.2
  | assign mark name value =>
      rintro _ ⟨⟩
      exact h.2
  | expression value =>
      rintro _ ⟨⟩
      exact h

-- ============================================== where the marks lie

variable {text : List Char}

mutual

/-- Every mark of a type that opens is the start of a character. -/
theorem TypeExpr.isCharStart_of_opens : ∀ t : TypeExpr, t.Opens text →
    ∀ m ∈ t.marks, IsCharStart text m
  | .named _ _, h => by
      rw [TypeExpr.Opens] at h
      rw [TypeExpr.marks]
      exact List.forall_mem_singleton.mpr h.isCharStart
  | .tuple columns, h => by
      rw [TypeExpr.Opens] at h
      rw [TypeExpr.marks]
      exact isCharStart_of_columnsOpen columns h
  | .relation columns, h => by
      rw [TypeExpr.Opens] at h
      rw [TypeExpr.marks]
      exact isCharStart_of_columnsOpen columns h

/-- Every mark of columns that open is the start of a character. -/
theorem isCharStart_of_columnsOpen : ∀ columns : List (String × TypeExpr),
    columnsOpen text columns → ∀ m ∈ columnMarks columns, IsCharStart text m
  | [], _ => by
      rw [columnMarks]
      exact List.forall_mem_nil _
  | (_, type) :: rest, h => by
      rw [columnsOpen] at h
      rw [columnMarks]
      exact List.forall_mem_append.mpr
        ⟨TypeExpr.isCharStart_of_opens type h.1, isCharStart_of_columnsOpen rest h.2⟩

end

namespace Expr

/-- The leading part of an expression begins with its token. An infix
chain leaves that to its first operand. -/
theorem isCharStart_lead : ∀ e : Expr, e.Everywhere (Opens text) → IsCharStart text e.lead
  | .member _ base _, h => isCharStart_lead base (h.part List.mem_cons_self)
  | .restrict _ base _, h => isCharStart_lead base (h.part List.mem_cons_self)
  | .fields _ base _, h => isCharStart_lead base (h.part List.mem_cons_self)
  | .chain m first _, h => by
      show IsCharStart text m
      obtain ⟨⟨hbegins, -⟩, hparts⟩ := everywhere_iff.mp h
      rcases hbegins with hparenthesis | hlead
      · exact hparenthesis.isCharStart
      · rw [hlead]
        exact isCharStart_lead first (hparts first List.mem_cons_self)
  | .number .., h => (h _ .here).elim fun _ hdigit => hdigit.2.isCharStart
  | .time .., h | .emptyTable .., h => (h _ .here).1.isCharStart
  | .text .., h | .bool .., h | .name .., h | .currentRow .., h | .call .., h
  | .fold .., h | .not .., h | .neg .., h | .row .., h | .table .., h | .block .., h =>
      (h _ .here).isCharStart

/-- A node whose only mark is its own is placed with it. -/
theorem IsPlaced.ofMark {P : Nat → Prop} {e : Expr} (hmarks : e.ownMarks = [e.mark])
    (hoperators : e.operators = []) (hmark : P e.mark) : e.IsPlaced P where
  marks := hmarks ▸ List.forall_mem_singleton.mpr hmark
  operators := hoperators ▸ List.forall_mem_nil _

/-- Every mark of an expression that opens is the start of a character. -/
theorem isPlaced_of_opens : ∀ e : Expr, e.Everywhere (Opens text) → e.IsPlaced (IsCharStart text)
  | .chain mark first steps, h => by
      have hlead := isCharStart_lead _ h
      have hsteps := (h _ .here).2
      refine ⟨List.forall_mem_cons.mpr ⟨hlead, List.forall_mem_map.mpr fun s hs => ?_⟩,
        List.forall_mem_map.mpr fun s hs => (hsteps s hs).1⟩
      exact (hsteps s hs).2.isCharStart
  | .fields mark _ list, h => by
      obtain ⟨hpoint, hkeys, hentries⟩ := h _ .here
      refine ⟨List.forall_mem_cons.mpr ⟨hpoint.isCharStart, List.forall_mem_append.mpr ⟨?_, ?_⟩⟩,
        List.forall_mem_nil _⟩
      · exact List.forall_mem_map.mpr fun key hkey => (hkeys key hkey).isCharStart
      · exact List.forall_mem_map.mpr fun entry hentry => (hentries entry hentry).isCharStart
  | .emptyTable mark columns, h => by
      obtain ⟨hbrace, hcolumns⟩ := h _ .here
      exact ⟨List.forall_mem_cons.mpr
        ⟨hbrace.isCharStart, isCharStart_of_columnsOpen columns hcolumns⟩, List.forall_mem_nil _⟩
  | .number .., h => .ofMark rfl rfl ((h _ .here).elim fun _ hdigit => hdigit.2.isCharStart)
  | .time .., h => .ofMark rfl rfl (h _ .here).1.isCharStart
  | .text .., h | .bool .., h | .name .., h | .currentRow .., h | .call .., h
  | .fold .., h | .not .., h | .neg .., h | .member .., h | .restrict .., h | .row .., h
  | .table .., h | .block .., h => .ofMark rfl rfl (h _ .here).isCharStart

end Expr

/-- The marks of a sentence lie at characters of the text that it opens
in. -/
theorem Sentence.isPlaced_of_opens {s : Sentence} (h : s.Opens text) :
    s.IsPlaced (IsCharStart text) := by
  refine ⟨?_, fun e he x hx => x.isPlaced_of_opens ((h.expression e he).inside hx)⟩
  cases s with
  | typeDef mark name supertype components =>
      obtain ⟨hmark, hsupertype, hcomponents⟩ := h
      refine List.forall_mem_cons.mpr ⟨hmark.isCharStart, List.forall_mem_append.mpr ⟨?_, ?_⟩⟩
      · exact List.forall_mem_map.mpr fun s hs =>
          (hsupertype s (Option.mem_toList.mp hs)).isCharStart
      · exact isCharStart_of_columnsOpen components hcomponents
  | define mark name params returns body =>
      obtain ⟨hmark, hparams, hreturns, -⟩ := h
      refine List.forall_mem_cons.mpr ⟨hmark.isCharStart, List.forall_mem_append.mpr ⟨?_, ?_⟩⟩
      · exact isCharStart_of_columnsOpen params hparams
      · intro m hm
        obtain ⟨t, ht, hm⟩ := List.mem_flatMap.mp hm
        exact t.isCharStart_of_opens (hreturns t (Option.mem_toList.mp ht)) m hm
  | assign mark name value => exact List.forall_mem_singleton.mpr h.1.isCharStart
  | expression value => exact List.forall_mem_nil _

end RelQuery
