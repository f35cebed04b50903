/-
What a reader takes is in order: brackets are closed in it, the
semicolons of its code stand inside them, and its strings and comments
are those that a plain walk over the text finds.

`Lexes a r b` says so of one reader, backwards: if what `r` leaves is
in order inside `b` brackets more, what it was given is in order inside
`a` more. Read this way the rules compose along a sequence of readers
with nothing said about the text that was taken, and a loop only has to
keep the number of brackets. Readers that never succeed lex anything.

One fact about tokens carries the minus sign: the place where blanks
and comments end never begins with two of them (`skip_rest_dash`), so
a minus that was taken does not open a comment.
-/
import RelQuery.Grammar.Sentence
import RelQuery.Proofs.Session.Place

namespace RelQuery

open Place

/-- The text is in order when it begins in code inside `depth`
brackets. -/
def Held (depth : Nat) (text : List Char) : Prop :=
  every true inSentence ⟨.code, depth⟩ text = true

namespace Held

variable {depth : Nat} {rest : List Char}

/-- A character of code that neither opens nor ends anything. -/
def isPlain (c : Char) : Bool :=
  ['\'', '-', '(', ')', '\x7b', '\x7d', '[', ']', ';', '#'].all (c != ·)

/-- A character that is no bracket, no quote and no dash changes nothing. -/
theorem plain {c : Char} (hc : isPlain c = true) (h : Held depth rest) :
    Held depth (c :: rest) := by
  simp only [isPlain, List.all_cons, List.all_nil, Bool.and_eq_true, bne_iff_ne, ne_eq] at hc
  simpa [Held, every, inSentence, semicolonBracketed, after, hc] using h

/-- A run of such characters changes nothing. -/
theorem plains {w : List Char} (hw : w.all isPlain = true) (h : Held depth rest) :
    Held depth (w ++ rest) := by
  induction w with
  | nil => exact h
  | cons c w ih =>
      rw [List.all_cons, Bool.and_eq_true] at hw
      exact plain hw.1 (ih hw.2)

/-- Plain characters at the front may be left out. -/
theorem of_drop {w text : List Char} (hw : w.all isPlain = true) (hfront : w <+: text)
    (h : Held depth (text.drop w.length)) : Held depth text := by
  obtain ⟨rest, rfl⟩ := hfront
  rw [List.drop_left] at h
  exact plains hw h

theorem dash (hrest : rest.head? ≠ some '-') (h : Held depth rest) : Held depth ('-' :: rest) := by
  simpa [Held, every, inSentence, semicolonBracketed, after, hrest] using h

/-- An opening bracket is held if what follows is, one deeper. -/
theorem opening {c : Char} (hc : c = '(' ∨ c = '\x7b') (h : Held (depth + 1) rest) :
    Held depth (c :: rest) := by
  rcases hc with rfl | rfl
  · exact h
  · exact h

/-- A closing bracket is held where one is open. -/
theorem closing {c : Char} (hc : c = ')' ∨ c = '\x7d') (h : Held depth rest) :
    Held (depth + 1) (c :: rest) := by
  rcases hc with rfl | rfl
  · exact h
  · exact h

theorem semicolon (h : Held (depth + 1) rest) : Held (depth + 1) (';' :: rest) := by
  simpa [Held, every, inSentence, semicolonBracketed, after] using h

-- ================================================= blanks and comments

theorem isPlain_of_isBlank {c : Char} (hc : Text.isBlank c = true) : isPlain c = true := by
  simp only [isPlain, List.all_cons, List.all_nil, Bool.and_eq_true, bne_iff_ne, ne_eq, and_true]
  refine ⟨?_, ?_, ?_, ?_, ?_, ?_, ?_, ?_, ?_, ?_⟩ <;> (rintro rfl; exact absurd hc (by decide))

/-- What is skipped keeps the depth, in a comment or outside: the induction
follows the skipping. -/
theorem of_skipFrom {inside : Bool} {offset : Nat} {text : List Char}
    (h : Held depth (Cursor.skipFrom inside offset text).rest) :
    every true inSentence ⟨if inside then .comment else .code, depth⟩ text = true := by
  fun_induction Cursor.skipFrom inside offset text with
  | case1 offset => rfl
  | case2 offset c rest ih =>
      have hok : inSentence ⟨.comment, depth⟩ c rest = true := by
        simp [inSentence, semicolonBracketed]
      have hafter : after true ⟨.comment, depth⟩ c rest
          = ⟨if (c != '\n') = true then .comment else .code, depth⟩ := by
        by_cases hc : c = '\n' <;> simp [after, hc]
      rw [if_pos rfl, every, hok, hafter]
      exact ih h
  | case3 inside offset c rest hinside hblank ih =>
      rw [if_neg hinside]
      exact plain (isPlain_of_isBlank hblank) (ih h)
  | case4 inside offset hinside rest hblank ih =>
      rw [if_neg hinside]
      exact ih h
  | case5 inside offset c rest hinside hblank hdash =>
      rw [if_neg hinside]
      exact h

/-- Blanks and comments in front keep the depth. -/
theorem of_skip {c : Cursor} (h : Held depth c.skip.rest) : Held depth c.rest := by
  have hrest : every true inSentence ⟨if false then .comment else .code, depth⟩ c.rest = true :=
    of_skipFrom h
  exact hrest

end Held

/-- A dash that is left after skipping stands alone, for two of them are a
comment. -/
theorem Cursor.skip_rest_dash (c : Cursor) {rest : List Char} (h : c.skip.rest = '-' :: rest) :
    rest.head? ≠ some '-' := by
  have hfrom (inside : Bool) (offset : Nat) (text : List Char)
      (h : (Cursor.skipFrom inside offset text).rest = '-' :: rest) : rest.head? ≠ some '-' := by
    fun_induction Cursor.skipFrom inside offset text with
    | case1 offset => cases h
    | case2 offset c text ih => exact ih h
    | case3 inside offset c text hinside hblank ih => exact ih h
    | case4 inside offset hinside text hblank ih => exact ih h
    | case5 inside offset c text hinside hblank hdash =>
        cases h
        intro hhead
        obtain ⟨tail, htail⟩ := List.head?_eq_some_iff.mp hhead
        exact hdash _ rfl htail
  exact hfrom _ _ _ h

namespace Reading

variable {α β : Type}

theorem bind_apply (r : Reading α) (f : α → Reading β) (c : Cursor) :
    (r >>= f) c = (r c).bind fun p => f p.1 p.2 := rfl

/-- What the reader takes is in order: inside `a` brackets before it and
`b` after it. -/
def Lexes (a : Nat) (r : Reading α) (b : α → Nat) : Prop :=
  ∀ c x c', r c = .ok (x, c') → ∀ d, Held (d + b x) c'.rest → Held (d + a) c.rest

/-- The reader takes whole brackets only. -/
abbrev Balanced (r : Reading α) : Prop := Lexes 0 r fun _ => 0

namespace Lexes

variable {a : Nat} {b : α → Nat} {r : Reading α}

/-- A reader that takes nothing stays at its depth. -/
theorem result (x : α) : Lexes (b x) (pure x : Reading α) b := by
  rintro c y c' h d hrest
  cases h
  exact hrest

/-- Two readers follow each other at the depth that the first one left. -/
theorem bind {e : β → Nat} {f : α → Reading β} (hr : Lexes a r b) (hf : ∀ x, Lexes (b x) (f x) e) :
    Lexes a (r >>= f) e := by
  intro c y c' h d hrest
  rw [bind_apply] at h
  cases hrun : r c with
  | error m =>
      rw [hrun] at h
      cases h
  | ok p =>
      rw [hrun] at h
      exact hr c p.1 p.2 hrun d (hf p.1 p.2 y c' h d hrest)

/-- A reader inside one more bracket. -/
theorem inside (hr : Lexes a r b) : Lexes (a + 1) r fun x => b x + 1 := by
  intro c x c' h d hrest
  have hmove (n : Nat) : d + (n + 1) = d + 1 + n := by omega
  rw [hmove] at hrest ⊢
  exact hr c x c' h (d + 1) hrest

/-- What is reported makes no difference to what is taken. -/
theorem onMiss {f : Miss → Miss} (hr : Lexes a r b) : Lexes a (onMiss f r) b := by
  intro c x c' h d hrest
  unfold Reading.onMiss at h
  cases hrun : r c with
  | error m =>
      rw [hrun] at h
      cases h
  | ok p =>
      rw [hrun] at h
      cases h
      exact hr c x c' hrun d hrest

theorem required {label : Label} (hr : Lexes a r b) : Lexes a (required label r) b := hr.onMiss

theorem wanting {t : String} (hr : Lexes a r b) : Lexes a (wanting t r) b := hr.onMiss

/-- An optional reader leaves the depth where it was, or takes it along. -/
theorem optional (hr : Lexes a r b) : Lexes a (optional r) fun o => o.elim a b := by
  intro c x c' h d hrest
  unfold Reading.optional at h
  cases hrun : r c with
  | error m =>
      rw [hrun] at h
      dsimp only at h
      split at h
      · cases h
      · cases h
        exact hrest
  | ok p =>
      rw [hrun] at h
      cases h
      exact hr c p.1 p.2 hrun d hrest

/-- Looking for a token leaves the depth where it was, or takes it along. -/
theorem found {k : Nat} (hr : Lexes a r fun _ => k) :
    Lexes a (found r) fun b => if b then k else a := by
  refine hr.optional.bind fun o => ?_
  cases o with
  | none => exact result (b := fun b => if b then k else a) false
  | some x => exact result (b := fun b => if b then k else a) true

/-- Whether it is there or not, a reader that takes whole brackets does. -/
theorem foundOrNot (hr : Balanced r) : Balanced (Reading.found r) := by
  simpa only [ite_self] using hr.found

theorem bounded {r : Nat → Reading α} (hr : ∀ n, Lexes a (r n) b) :
    Lexes a (bounded r) b :=
  fun c x c' h => hr _ c x c' h

theorem missing {label : Label} : Lexes a (missing label : Reading α) b := by
  intro c x c' h
  cases h

theorem refuse {place : Cursor} {label : Label} : Lexes a (refuse place label : Reading α) b := by
  intro c x c' h
  cases h

/-- It is enough to look at the text from the next token on. -/
theorem ofSkip (hr : ∀ c x c', r c = .ok (x, c') → ∀ d, Held (d + b x) c'.rest →
    Held (d + a) c.skip.rest) : Lexes a r b :=
  fun c x c' h d hrest => Held.of_skip (hr c x c' h d hrest)

end Lexes

open Lexes

-- ============================================================= tokens

theorem mark_balanced : Balanced mark := by
  refine ofSkip fun c x c' h d hrest => ?_
  cases h
  exact hrest

theorem ahead_balanced : Balanced ahead := by
  refine ofSkip fun c x c' h d hrest => ?_
  cases h
  exact hrest

/-- A mark that is found stands in front of the rest. -/
theorem after?_eq_some {mark text rest : List Char} (h : Text.after? mark text = some rest) :
    text = mark ++ rest := by
  fun_induction Text.after? mark text with
  | case1 text => exact Option.some.inj h
  | case2 => cases h
  | case3 m mark c text hm ih =>
      rw [List.cons_append, ← ih h, eq_of_beq hm]
  | case4 => cases h

/-- A fixed token does what its characters do. -/
theorem token_lexes {t : String} {a b : Nat}
    (ht : ∀ (c : Cursor) (d : Nat) (rest : List Char), c.skip.rest = t.toList ++ rest →
      Held (d + b) rest → Held (d + a) (t.toList ++ rest)) : Lexes a (token t) fun _ => b := by
  refine ofSkip fun c x c' h d hrest => ?_
  unfold token at h
  dsimp only at h
  split at h
  · rename_i rest hafter
    cases h
    have hsplit := after?_eq_some hafter
    rw [hsplit]
    exact ht c d rest hsplit hrest
  · cases h

theorem token_balanced {t : String} (ht : t.toList.all Held.isPlain = true) : Balanced (token t) :=
  token_lexes fun _ _ _ _ hrest => Held.plains ht hrest

theorem dash_balanced : Balanced (token "-") :=
  token_lexes fun c _ _ hc hrest => Held.dash (c.skip_rest_dash hc) hrest

/-- An opening bracket leads one deeper. -/
theorem open_lexes {t : String} (ht : t.toList = ['('] ∨ t.toList = ['\x7b']) :
    Lexes 0 (token t) fun _ => 1 := by
  refine token_lexes fun _ d rest _ hrest => ?_
  rcases ht with ht | ht
  · rw [ht]
    exact Held.opening (.inl rfl) hrest
  · rw [ht]
    exact Held.opening (.inr rfl) hrest

/-- A closing bracket leads back. -/
theorem close_lexes {t : String} (ht : t.toList = [')'] ∨ t.toList = ['\x7d']) :
    Lexes 1 (token t) fun _ => 0 := by
  refine token_lexes fun _ d rest _ hrest => ?_
  rcases ht with ht | ht
  · rw [ht]
    exact Held.closing (.inl rfl) hrest
  · rw [ht]
    exact Held.closing (.inr rfl) hrest

theorem semicolon_lexes : Lexes 1 (token ";") fun _ => 1 :=
  token_lexes fun _ _ _ _ hrest => Held.semicolon hrest

/-- A keyword holds no brackets. -/
theorem keyword_balanced {w : String} (hw : w.toList.all Held.isPlain = true) :
    Balanced (keyword w) := by
  refine ofSkip fun c x c' h d hrest => ?_
  unfold keyword at h
  dsimp only at h
  split at h
  · rename_i rest hafter
    split at h
    · cases h
    · cases h
      rw [after?_eq_some hafter]
      exact Held.plains hw hrest
  · cases h

-- ================================================== names and numbers

theorem isPlain_of_isNameChar {c : Char} (hc : isNameChar c = true) : Held.isPlain c = true := by
  simp only [Held.isPlain, List.all_cons, List.all_nil, Bool.and_eq_true, bne_iff_ne,
    ne_eq, and_true]
  refine ⟨?_, ?_, ?_, ?_, ?_, ?_, ?_, ?_, ?_, ?_⟩ <;> (rintro rfl; exact absurd hc (by decide))

theorem isPlain_of_isDigit {c : Char} (hc : c.isDigit = true) : Held.isPlain c = true :=
  isPlain_of_isNameChar (by simp [isNameChar, Char.isAlphanum, hc])

theorem all_isPlain_takeWhile {p : Char → Bool} (hp : ∀ c, p c = true → Held.isPlain c = true)
    (text : List Char) : (text.takeWhile p).all Held.isPlain = true :=
  List.all_eq_true.mpr fun c hc => hp c (List.all_eq_true.mp List.all_takeWhile c hc)

/-- The characters of a name are plain. -/
theorem leadingName_isPlain (text : List Char) : (leadingName text).all Held.isPlain = true := by
  unfold leadingName
  split
  · exact all_isPlain_takeWhile (fun _ => isPlain_of_isNameChar) text
  · rfl

/-- A name is the beginning of the text that it leads. -/
theorem leadingName_isPrefix (text : List Char) : leadingName text <+: text := by
  unfold leadingName
  split
  · exact List.takeWhile_prefix _
  · exact List.nil_prefix

theorem ident_balanced : Balanced ident := by
  refine ofSkip fun c x c' h d hrest => ?_
  unfold ident at h
  dsimp only at h
  split at h
  · cases h
  · cases h
    exact Held.of_drop (leadingName_isPlain _) (leadingName_isPrefix _) hrest

theorem name_balanced : Balanced name := ident_balanced.required

/-- The characters of a number are plain: digits and a point. -/
theorem leadingNumber_isPlain (text : List Char) :
    (leadingNumber text).all Held.isPlain = true := by
  have hwhole (text : List Char) : (text.takeWhile Char.isDigit).all Held.isPlain = true :=
    all_isPlain_takeWhile (fun _ => isPlain_of_isDigit) text
  have hpoint : Held.isPlain '.' = true := by decide
  unfold leadingNumber
  dsimp only
  split
  · split
    · exact hwhole text
    · rw [List.all_append, List.all_cons, hwhole, hwhole, hpoint]
      rfl
  · exact hwhole text

/-- A number is the beginning of the text that it leads. -/
theorem leadingNumber_isPrefix (text : List Char) : leadingNumber text <+: text := by
  unfold leadingNumber
  dsimp only
  split
  · rename_i rest hdrop
    split
    · exact List.takeWhile_prefix _
    · have htext : text.takeWhile Char.isDigit ++ '.' :: rest = text := by
        rw [← hdrop]
        exact List.takeWhile_append_dropWhile
      obtain ⟨tail, htail⟩ := List.takeWhile_prefix (l := rest) Char.isDigit
      refine ⟨tail, ?_⟩
      rw [List.append_assoc, List.cons_append, htail, htext]
  · exact List.takeWhile_prefix _

theorem number_balanced : Balanced number := by
  refine ofSkip fun c x c' h d hrest => ?_
  unfold number at h
  dsimp only at h
  split at h
  · cases h
  · split at h
    · cases h
      exact Held.of_drop (leadingNumber_isPlain _) (leadingNumber_isPrefix _) hrest
    · cases h

-- ========================================================== operators

/-- The operator that is read is one of those looked for, and begins the
text. -/
theorem leadingSign?_eq_some {text : List Char} {signs : List String} {op : String}
    (h : leadingSign? text signs = some op) : op ∈ signs ∧ op.toList <+: text := by
  fun_induction leadingSign? text signs with
  | case1 => cases h
  | case2 sign signs hsign =>
      cases h
      obtain ⟨rest, hrest⟩ := Option.isSome_iff_exists.mp hsign
      exact ⟨List.mem_cons_self, rest, (after?_eq_some hrest).symm⟩
  | case3 sign signs hsign ih => exact ⟨List.mem_cons_of_mem _ (ih h).1, (ih h).2⟩

/-- An operator is a minus or made of plain characters. -/
theorem leadingOperator?_eq_some {text : List Char} {op : String}
    (h : leadingOperator? text = some op) :
    op.toList <+: text ∧ (op = "-" ∨ op.toList.all Held.isPlain = true) := by
  have hsigns : ∀ sign ∈ signOperators, sign = "-" ∨ sign.toList.all Held.isPlain = true := by
    decide
  unfold leadingOperator? at h
  split at h
  · cases h
  · split at h
    · rename_i sign hsign
      cases h
      obtain ⟨hmem, hfront⟩ := leadingSign?_eq_some hsign
      exact ⟨hfront, hsigns op hmem⟩
    · dsimp only at h
      split at h
      · cases h
        rw [String.toList_ofList]
        exact ⟨leadingName_isPrefix text, .inr (leadingName_isPlain text)⟩
      · cases h

/-- An operator has no brackets, and its dash stands alone. -/
theorem infixOperator_balanced : Balanced infixOperator := by
  refine ofSkip fun c x c' h d hrest => ?_
  unfold infixOperator at h
  dsimp only at h
  split at h
  · rename_i op hop
    cases h
    obtain ⟨hfront, rfl | hplain⟩ := leadingOperator?_eq_some hop
    · obtain ⟨rest, hsplit⟩ := hfront
      change Held d (c.skip.rest.drop 1) at hrest
      rw [← hsplit] at hrest ⊢
      exact Held.dash (c.skip_rest_dash hsplit.symm) hrest
    · exact Held.of_drop hplain hfront hrest
  · cases h

-- ====================================================== texts and times

/-- The text of a string is passed over, doubled quotes with it. -/
theorem quotedRest_held {text s rest : List Char} {n d : Nat}
    (h : quotedRest text = some (s, n, rest)) (hrest : Held d rest) :
    every true inSentence ⟨.string, d⟩ text = true := by
  fun_induction quotedRest text generalizing s n with
  | case1 => cases h
  | case2 tail ih =>
      obtain ⟨⟨s', n', r'⟩, hquoted, heq⟩ := Option.map_eq_some_iff.mp h
      cases heq
      exact ih hquoted
  | case3 c tail hdouble hc =>
      cases h
      cases eq_of_beq hc
      exact hrest
  | case4 c tail hdouble hc ih =>
      obtain ⟨⟨s', n', r'⟩, hquoted, heq⟩ := Option.map_eq_some_iff.mp h
      cases heq
      have hok : inSentence ⟨.string, d⟩ c tail = true := by simp [inSentence, semicolonBracketed]
      have hquote : c ≠ '\'' := by simpa using hc
      have hafter : after true ⟨.string, d⟩ c tail = ⟨.string, d⟩ := by simp [after, hquote]
      rw [every, hok, hafter]
      exact ih hquoted

/-- A text is held from quote to quote, whatever it contains. -/
theorem quoted_balanced : Balanced quoted := by
  refine ofSkip fun c x c' h d hrest => ?_
  unfold quoted at h
  dsimp only at h
  split at h
  · rename_i rest hopen
    split at h
    · rename_i s n r hquoted
      cases h
      rw [hopen]
      exact quotedRest_held hquoted hrest
    · cases h
  · cases h

/-- A moment is an at sign and a text. -/
theorem time_balanced : Balanced time := by
  refine mark_balanced.bind fun _ => ?_
  refine Lexes.bind (b := fun _ => 0) (r := get) ?_ fun start => ?_
  · rintro c x c' h d hrest
    cases h
    exact hrest
  · refine (token_balanced (by decide)).bind fun _ => quoted_balanced.bind fun s => ?_
    cases Moment.read? s with
    | none => exact Lexes.refuse
    | some m => exact result m

-- ============================================================== lists

/-- The rest of a list is balanced if its items and separators are. -/
theorem separatedRest_balanced {separator : Reading Unit} {item : Reading α}
    (hseparator : Balanced separator) (hitem : Balanced item) (n : Nat) :
    Balanced (separatedRest separator item n) := by
  induction n with
  | zero => exact result []
  | succ n ih =>
      refine (hseparator.bind fun _ => hitem).optional.bind fun o => ?_
      cases o with
      | none => exact result []
      | some x => exact ih.bind fun xs => result (x :: xs)

theorem separated1_balanced {separator : Reading Unit} {item : Reading α}
    (hseparator : Balanced separator) (hitem : Balanced item) :
    Balanced (separated1 separator item) :=
  hitem.bind fun x =>
    (Lexes.bounded (separatedRest_balanced hseparator hitem)).bind fun xs => result (x :: xs)

theorem separated_balanced {separator : Reading Unit} {item : Reading α}
    (hseparator : Balanced separator) (hitem : Balanced item) :
    Balanced (separated separator item) := by
  refine hitem.optional.bind fun o => ?_
  cases o with
  | none => exact result []
  | some x =>
      exact (Lexes.bounded (separatedRest_balanced hseparator hitem)).bind fun xs =>
          result (x :: xs)

theorem comma_balanced : Balanced comma := token_balanced (by decide)

-- ============================================================== types

theorem column_balanced {type : Reading TypeExpr} (htype : Balanced type) :
    Balanced (column type) :=
  ident_balanced.bind fun x =>
    (token_balanced (by decide)).wanting.bind fun _ => htype.bind fun t => result (x, t)

theorem columns_balanced {type : Reading TypeExpr} (htype : Balanced type) :
    Balanced (columns type) :=
  separated_balanced comma_balanced (column_balanced htype)

/-- Types are balanced, by induction on the depth they may have. -/
theorem typeWithin_balanced (depth : Nat) : Balanced (typeWithin depth) := by
  induction depth with
  | zero => exact Lexes.missing
  | succ depth ih =>
      have hcolumns (f : List (String × TypeExpr) → TypeExpr) : Balanced (do
          expect "\x7b"
          let cs ← columns (typeWithin depth)
          close "\x7d"
          return f cs) :=
        (open_lexes (.inr rfl)).wanting.bind fun _ =>
          (columns_balanced ih).inside.bind fun cs =>
            (close_lexes (.inr rfl)).required.bind fun _ => result (f cs)
      refine mark_balanced.bind fun start => ?_
      refine (keyword_balanced (by decide)).found.bind fun isTuple => ?_
      cases isTuple with
      | true => exact hcolumns .tuple
      | false =>
          refine (keyword_balanced (by decide)).found.bind fun isRelation => ?_
          cases isRelation with
          | true => exact hcolumns .relation
          | false => exact ident_balanced.required.bind fun x => result (TypeExpr.named x start)

theorem type_balanced : Balanced type := Lexes.bounded typeWithin_balanced

-- ================================================= readers of what nests

/-- The readers of what is nested take whole brackets only. -/
structure Nested.IsBalanced (n : Nested) : Prop where
  expression : Balanced n.expression
  operand : Balanced n.operand

section Nested

variable {n : Nested}

theorem Nested.IsBalanced.inner (h : n.IsBalanced) : Balanced n.inner := h.expression.required

theorem binding_balanced (h : n.IsBalanced) : Balanced (binding n) :=
  ident_balanced.bind fun x =>
    (token_balanced (by decide)).wanting.bind fun _ => h.inner.bind fun e => result _

theorem bindings_balanced (h : n.IsBalanced) : Balanced (bindings n) :=
  separated_balanced comma_balanced (binding_balanced h)

-- ======================================================== field lists

theorem orderKey_balanced : Balanced orderKey := by
  refine mark_balanced.bind fun start => (token_balanced (by decide)).foundOrNot.bind
      fun grouped => ?_
  exact dash_balanced.foundOrNot.bind fun descending => name_balanced.bind fun x => result _

theorem fieldEntry_balanced (h : n.IsBalanced) (list : FieldList) :
    Balanced (fieldEntry n list) := by
  refine mark_balanced.bind fun start => (token_balanced (by decide)).found.bind fun isOrder => ?_
  cases isOrder with
  | true =>
      exact (open_lexes (.inl rfl)).wanting.bind fun _ =>
        (separated1_balanced comma_balanced orderKey_balanced).inside.bind fun keys =>
          (close_lexes (.inl rfl)).required.bind fun _ => result _
  | false =>
      refine name_balanced.bind fun field => (token_balanced (by decide)).found.bind
          fun computed => ?_
      cases computed with
      | true => exact h.inner.bind fun value => result _
      | false => exact result _

/-- The entries of a field list are balanced, one after the other. -/
theorem fieldEntries_balanced (h : n.IsBalanced) (fuel : Nat) (list : FieldList) :
    Balanced (fieldEntries n fuel list) := by
  induction fuel generalizing list with
  | zero => exact result list
  | succ fuel ih =>
      refine (fieldEntry_balanced h list).bind fun list => comma_balanced.found.bind fun more => ?_
      cases more with
      | true => exact ih list
      | false => exact result list

/-- A field list closes the brace that it opens. -/
theorem fieldList_balanced (h : n.IsBalanced) : Balanced (fieldList n) := by
  have hlist (list : FieldList) : Balanced (do
      if (← ahead).head? == some '\x7d' then return list
      else bounded fun fuel => fieldEntries n fuel list) := by
    refine ahead_balanced.bind fun text => ?_
    split
    · exact result list
    · exact Lexes.bounded fun fuel => fieldEntries_balanced h fuel list
  have hrest (allBut : Bool) : Balanced (do
      if allBut then
        let _ ← found comma
      let list : FieldList := ⟨allBut, [], []⟩
      if (← ahead).head? == some '\x7d' then return list
      else bounded fun fuel => fieldEntries n fuel list) := by
    cases allBut with
    | true => exact comma_balanced.foundOrNot.bind fun _ => hlist _
    | false => exact hlist _
  refine (token_balanced (by decide)).foundOrNot.bind fun star => ?_
  cases star with
  | true => exact hrest true
  | false => exact (keyword_balanced (by decide)).foundOrNot.bind fun allBut => hrest allBut

-- ========================================================== primaries

/-- Looking ahead for a column takes nothing. -/
theorem columnAhead_balanced : Balanced columnAhead := by
  intro c x c' h d hrest
  unfold columnAhead at h
  split at h
  · cases h
    exact hrest
  · cases h
    exact hrest

/-- The rows of a table are balanced, one after the other. -/
theorem rowsRest_balanced (h : n.IsBalanced) (fuel : Nat) : Balanced (rowsRest n fuel) := by
  induction fuel with
  | zero => exact result []
  | succ fuel ih =>
      refine comma_balanced.found.bind fun more => ?_
      cases more with
      | true =>
          exact (open_lexes (.inr rfl)).wanting.bind fun _ =>
            (bindings_balanced h).inside.bind fun row =>
              (close_lexes (.inr rfl)).required.bind fun _ => ih.bind fun rows => result _
      | false => exact result []

/-- Braces close what they open, whichever of the three they turn out to
be. -/
theorem braces_balanced (h : n.IsBalanced) (start : Nat) : Balanced (braces n start) := by
  have hclose : Lexes 1 (close "\x7d") fun _ => 0 := (close_lexes (.inr rfl)).required
  refine (open_lexes (.inr rfl)).bind fun _ => ahead_balanced.inside.bind fun text => ?_
  split
  · exact (close_lexes (.inr rfl)).bind fun _ => result _
  · refine (open_lexes (.inr rfl)).inside.bind fun _ =>
      columnAhead_balanced.inside.inside.bind fun isColumn => ?_
    cases isColumn with
    | true =>
        exact (separated1_balanced comma_balanced
            (column_balanced type_balanced)).inside.inside.bind
          fun cs => hclose.inside.bind fun _ => hclose.bind fun _ => result _
    | false =>
        exact (bindings_balanced h).inside.inside.bind fun first => hclose.inside.bind fun _ =>
          (Lexes.bounded (rowsRest_balanced h)).inside.bind fun rest =>
            hclose.bind fun _ => result _
  · exact (bindings_balanced h).inside.bind fun bs => hclose.bind fun _ => result _

/-- Arguments stand inside a bracket and close it. -/
theorem arguments_lexes (h : n.IsBalanced) : Lexes 1 (arguments n) fun _ => 0 := by
  refine ahead_balanced.inside.bind fun text => ?_
  split
  · exact (close_lexes (.inl rfl)).bind fun _ => result _
  · exact (separated1_balanced comma_balanced h.inner).inside.bind fun args =>
      (close_lexes (.inl rfl)).required.bind fun _ => result _

theorem boundName_balanced : Balanced boundName :=
  ident_balanced.bind fun x => (token_balanced (by decide)).bind fun _ => result x

/-- The bindings of a block stand inside its bracket, as its semicolons do. -/
theorem blockBindings_lexes (h : n.IsBalanced) (fuel : Nat) :
    Lexes 1 (blockBindings n fuel) fun _ => 1 := by
  induction fuel with
  | zero => exact result (b := fun _ => 1) []
  | succ fuel ih =>
      refine boundName_balanced.inside.optional.bind fun o => ?_
      cases o with
      | none => exact result (b := fun _ => 1) []
      | some x =>
          exact h.inner.inside.bind fun value => semicolon_lexes.wanting.bind fun _ =>
            ih.bind fun bs => result (b := fun _ => 1) _

/-- A block closes the bracket that it opens. -/
theorem block_balanced (h : n.IsBalanced) (start : Nat) : Balanced (block n start) := by
  refine (open_lexes (.inr rfl)).wanting.bind fun _ => ?_
  refine (Lexes.bounded (blockBindings_lexes h)).bind fun bindings => ?_
  refine h.inner.inside.bind fun body => ?_
  exact (close_lexes (.inr rfl)).required.bind fun _ => result _

theorem fold_balanced (h : n.IsBalanced) (start : Nat) : Balanced (fold n start) := by
  refine (open_lexes (.inl rfl)).wanting.bind fun _ => ?_
  -- inside of the bracket
  refine infixOperator_balanced.required.inside.bind fun op => ?_
  refine (token_balanced (t := ",") (by decide)).wanting.inside.bind fun _ => ?_
  refine h.inner.inside.bind fun arg => ?_
  exact (close_lexes (.inl rfl)).required.bind fun _ => result _

/-- What begins with a word is balanced in each of its readings. -/
theorem word_balanced (h : n.IsBalanced) (start : Nat) : Balanced (word n start) := by
  refine (keyword_balanced (by decide)).found.bind fun isTrue => ?_
  cases isTrue with
  | true => exact result _
  | false =>
    refine (keyword_balanced (by decide)).found.bind fun isFalse => ?_
    cases isFalse with
    | true => exact result _
    | false =>
      refine (keyword_balanced (by decide)).found.bind fun isFold => ?_
      cases isFold with
      | true => exact fold_balanced h start
      | false =>
        refine (keyword_balanced (by decide)).found.bind fun isBlock => ?_
        cases isBlock with
        | true => exact block_balanced h start
        | false =>
          refine ident_balanced.optional.bind fun o => ?_
          cases o with
          | none => exact mark_balanced.bind fun _ => Lexes.missing
          | some id =>
            refine (open_lexes (.inl rfl)).found.bind fun isCall => ?_
            cases isCall with
            | true => exact (arguments_lexes h).bind fun args => result _
            | false => exact result _

/-- A primary is balanced in each of its readings. -/
theorem primary_balanced (h : n.IsBalanced) : Balanced (primary n) := by
  refine mark_balanced.bind fun start => ahead_balanced.bind fun text => ?_
  split
  · exact quoted_balanced.bind fun s => result _
  · exact time_balanced.bind fun m => result _
  · exact (token_balanced (by decide)).bind fun _ => result _
  · exact (open_lexes (.inl rfl)).bind fun _ => h.inner.inside.bind fun e =>
      (close_lexes (.inl rfl)).required.bind fun _ => result e
  · exact braces_balanced h start
  · split
    · exact number_balanced.bind fun d => result _
    · exact word_balanced h start
  · exact word_balanced h start

-- ========================================================== operators

/-- A selection is balanced in each of its readings. -/
theorem selection_balanced (h : n.IsBalanced) (start : Nat) (base : Expr) :
    Balanced (selection n start base) := by
  refine (open_lexes (.inr rfl)).found.bind fun isFields => ?_
  cases isFields with
  | true =>
      exact (fieldList_balanced h).inside.bind fun list =>
        (close_lexes (.inr rfl)).required.bind fun _ => result _
  | false =>
      refine (keyword_balanced (by decide)).found.bind fun isWhere => ?_
      cases isWhere with
      | true =>
          exact (open_lexes (.inl rfl)).wanting.bind fun _ => h.inner.inside.bind fun predicate =>
            (close_lexes (.inl rfl)).required.bind fun _ => result _
      | false => exact name_balanced.bind fun x => result _

/-- Selections are balanced, one after the other. -/
theorem selections_balanced (h : n.IsBalanced) (fuel : Nat) (base : Expr) :
    Balanced (selections n fuel base) := by
  induction fuel generalizing base with
  | zero => exact result base
  | succ fuel ih =>
      refine mark_balanced.bind fun start => (token_balanced (by decide)).found.bind fun more => ?_
      cases more with
      | true => exact (selection_balanced h start base).bind fun e => ih e
      | false => exact result base

theorem postfixed_balanced (h : n.IsBalanced) : Balanced (postfixed n) :=
  (primary_balanced h).bind fun base => Lexes.bounded fun fuel => selections_balanced h fuel base

theorem operandOf_balanced (h : n.IsBalanced) : Balanced (operandOf n) := by
  refine mark_balanced.bind fun start => (keyword_balanced (by decide)).found.bind fun isNot => ?_
  cases isNot with
  | true => exact h.operand.required.bind fun e => result _
  | false =>
      refine dash_balanced.found.bind fun isNeg => ?_
      cases isNeg with
      | true => exact h.operand.required.bind fun e => result _
      | false => exact postfixed_balanced h

/-- The steps of a chain are balanced, one after the other. -/
theorem steps_balanced {operand : Reading Expr} (h : Balanced operand) (fuel : Nat) :
    Balanced (steps operand fuel) := by
  induction fuel with
  | zero => exact result []
  | succ fuel ih =>
      refine mark_balanced.bind fun start => infixOperator_balanced.optional.bind fun o => ?_
      cases o with
      | none => exact result []
      | some op => exact h.required.bind fun rhs => ih.bind fun rest => result _

theorem expressionOf_balanced (h : n.IsBalanced) : Balanced (expressionOf n) := by
  refine mark_balanced.bind fun start => (operandOf_balanced h).bind fun first => ?_
  refine (Lexes.bounded (steps_balanced (operandOf_balanced h))).bind fun rest => ?_
  cases rest with
  | nil => exact result first
  | cons step rest => exact result _

end Nested

/-- What is nested is balanced, by induction on the depth it may have. -/
theorem nested_isBalanced (depth : Nat) : (nested depth).IsBalanced := by
  induction depth with
  | zero => exact ⟨Lexes.missing, Lexes.missing⟩
  | succ depth ih => exact ⟨expressionOf_balanced ih, operandOf_balanced ih⟩

theorem expression_balanced : Balanced expression :=
  Lexes.bounded fun depth => expressionOf_balanced (nested_isBalanced depth)

-- ========================================================== sentences

theorem typeDefinition_balanced (start : Nat) : Balanced (typeDefinition start) := by
  refine name_balanced.bind fun typeName => ?_
  have hrest (supertype : Option (String × Nat)) : Balanced (do
      expect "("
      let components ← columns type
      close ")"
      return Sentence.typeDef start typeName supertype components) :=
    (open_lexes (.inl rfl)).wanting.bind fun _ =>
      (columns_balanced type_balanced).inside.bind fun cs =>
        (close_lexes (.inl rfl)).required.bind fun _ => result _
  refine (token_balanced (by decide)).found.bind fun hasSupertype => ?_
  cases hasSupertype with
  | true =>
      exact mark_balanced.bind fun place => name_balanced.bind fun x => hrest (some (x, place))
  | false => exact hrest none

theorem definition_balanced (start : Nat) : Balanced (definition start) := by
  refine name_balanced.bind fun functionName => (open_lexes (.inl rfl)).wanting.bind fun _ => ?_
  refine (columns_balanced type_balanced).inside.bind fun params => ?_
  refine (close_lexes (.inl rfl)).required.bind fun _ => ?_
  have hrest (returns : Option TypeExpr) : Balanced (do
      expect "=>"
      return Sentence.define start functionName params returns (← requiredExpression)) :=
    (token_balanced (by decide)).wanting.bind fun _ =>
      expression_balanced.required.bind fun body => result _
  refine (token_balanced (by decide)).found.bind fun hasType => ?_
  cases hasType with
  | true => exact type_balanced.bind fun t => hrest (some t)
  | false => exact hrest none

/-- A sentence closes every bracket that it opens. -/
theorem sentence_balanced : Balanced sentence := by
  refine mark_balanced.bind fun start => (keyword_balanced (by decide)).found.bind fun isType => ?_
  cases isType with
  | true => exact typeDefinition_balanced start
  | false =>
      refine (keyword_balanced (by decide)).found.bind fun isDef => ?_
      cases isDef with
      | true => exact definition_balanced start
      | false =>
          refine boundName_balanced.optional.bind fun o => ?_
          cases o with
          | some target => exact expression_balanced.required.bind fun e => result _
          | none => exact expression_balanced.bind fun e => result _

end Reading

/-- A text that is a sentence closes its brackets, and the semicolons of
its code stand inside them. -/
theorem Sentence.held_of_read {text : List Char} {s : Sentence} (h : Sentence.read text = .ok s) :
    Held 0 text := by
  unfold Sentence.read at h
  split at h
  · rename_i s' c hrun
    dsimp only at h
    split at h
    · rename_i hend
      refine Reading.sentence_balanced ⟨0, text⟩ s' c hrun 0 (Held.of_skip ?_)
      rw [List.isEmpty_iff.mp hend]
      rfl
    · cases h
  · cases h

/-- Blanks and comments alone are no sentence. -/
theorem Sentence.skip_ne_nil_of_read {text : List Char} {s : Sentence}
    (h : Sentence.read text = .ok s) : (Cursor.skip ⟨0, text⟩).rest ≠ [] := by
  intro hnil
  have hmark : Reading.mark ⟨0, text⟩ = Reading.mark ⟨(Cursor.skip ⟨0, text⟩).offset, []⟩ := by
    have hskip : Cursor.skip ⟨0, text⟩ = ⟨(Cursor.skip ⟨0, text⟩).offset, []⟩ := by
      rw [← hnil]
    show Except.ok _ = Except.ok _
    rw [hskip]
    rfl
  -- every alternative of a sentence needs a token
  have hmiss (o : Nat) : ∃ m, Reading.sentence ⟨o, []⟩ = .error m := ⟨_, rfl⟩
  have hsame : Reading.sentence ⟨0, text⟩ =
      Reading.sentence ⟨(Cursor.skip ⟨0, text⟩).offset, []⟩ := by
    unfold Reading.sentence
    rw [Reading.bind_apply, Reading.bind_apply, hmark]
  obtain ⟨m, hm⟩ := hmiss (Cursor.skip ⟨0, text⟩).offset
  rw [Sentence.read, hsame, hm] at h
  cases h

end RelQuery
