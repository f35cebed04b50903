/-
The levels of the grammar.

There are four, each with a reader of its own: a primary, a primary
with selections, an operand and a chain. An expression is written at
its own level and stands in parentheses where a tighter one is
required, so it is enough to read it at its level: a reader passes what
it finds on to the looser ones, and parentheses make a primary of
anything (`ReadsPrimary` to `ReadsExpression` and back). `IsRead`
collects what this gives for one expression.

Selections are read in a loop that begins with the base. What is known
of the base has therefore to be known with the loop still going on
(`ReadsBase`), with enough rounds left for the tokens that follow.

The readers of what is nested are bounded in depth. One token at least
stands around everything nested, so the number of tokens is bound
enough.
-/
import RelQuery.Proofs.Grammar.Phrases

namespace RelQuery

open Text

namespace Reading

-- ============================================================= levels

/-- The reader of selections has come to the end of the base: it goes on
from there, before the tokens `b`, with at least as many rounds. -/
def ReadsBase (n : Nested) (a b : List String) (P : Expr → Prop) : Prop :=
  ∀ c, Before c a → ∃ x c' fuel, postfixed n c = selections n fuel x c' ∧ b.length ≤ fuel ∧
    P x ∧ Before c' b

/-- The tokens are read as a primary. -/
def ReadsPrimary (ts : List String) (P : Expr → Prop) : Prop :=
  ∀ d tail, ts.length ≤ d → EndsBase tail → Reads (primary (nested d)) (ts ++ tail) tail P

/-- The tokens are read as a primary with selections. -/
def ReadsPostfixed (ts : List String) (P : Expr → Prop) : Prop :=
  ∀ d tail, ts.length ≤ d → EndsBase tail → ReadsBase (nested d) (ts ++ tail) tail P

/-- The tokens are read as an operand. -/
def ReadsOperand (ts : List String) (P : Expr → Prop) : Prop :=
  ∀ d tail, ts.length ≤ d → EndsOperand tail → Reads (operandOf (nested d)) (ts ++ tail) tail P

/-- The tokens are read as an expression. -/
def ReadsExpression (ts : List String) (P : Expr → Prop) : Prop :=
  ∀ d tail, ts.length ≤ d → Ends tail → Reads (expressionOf (nested d)) (ts ++ tail) tail P

section Levels

variable {n : Nested} {a b ts : List String} {P Q : Expr → Prop}

/-- A primary is a base that nothing is selected from. -/
theorem Reads.base (h : Reads (primary n) a b P) : ReadsBase n a b P := by
  intro c hc
  obtain ⟨x, c', hrun, hx, hc'⟩ := h c hc
  refine ⟨x, c', c'.rest.length + 1, ?_, hc'.length_le, hx, hc'⟩
  unfold postfixed
  rw [bind_apply, hrun]
  rfl

/-- One more selection. -/
theorem ReadsBase.selection {b' : List String} (h : ReadsBase n a ("." :: b) P)
    (hselection : ∀ x start, P x → Reads (selection n start x) b b' Q)
    (hle : b'.length ≤ b.length) :
    ReadsBase n a b' Q := by
  intro c hc
  obtain ⟨x, c₁, fuel, hrun, hfuel, hx, hc₁⟩ := h c hc
  obtain ⟨fuel, rfl⟩ := Nat.exists_eq_succ_of_ne_zero (Nat.ne_zero_of_lt hfuel)
  obtain ⟨start, c₂, hmark, -, hc₂⟩ := mark_reads _ c₁ hc₁
  obtain ⟨-, c₃, hpoint, rfl, hc₃⟩ := (token_reads "." b).found c₂ hc₂
  obtain ⟨y, c₄, hsel, hy, hc₄⟩ := hselection x start hx c₃ hc₃
  refine ⟨y, c₄, fuel, ?_, ?_, hy, hc₄⟩
  · rw [hrun, selections, bind_apply, hmark]
    show (found (token ".") >>= _) c₂ = _
    rw [bind_apply, hpoint]
    show (Reading.selection n start x >>= _) c₃ = _
    rw [bind_apply, hsel]
    rfl
  · rw [List.length_cons] at hfuel
    omega

/-- A base that no point follows is a whole operand. -/
theorem ReadsBase.postfixed (h : ReadsBase n a b P) (hb : first? b ≠ some '.') :
    Reads (postfixed n) a b P := by
  intro c hc
  obtain ⟨x, c', fuel, hrun, -, hx, hc'⟩ := h c hc
  have hpoint : Misses (token ".") b := token_misses rfl hb
  have hend := before_position.selections_stop (n := n) (P := (· = x)) fuel hpoint rfl
  obtain ⟨y, c'', hstop, rfl, hc''⟩ := hend c' hc'
  exact ⟨y, c'', by rw [hrun, hstop], hx, hc''⟩

theorem ReadsPrimary.postfixed (h : ReadsPrimary ts P) : ReadsPostfixed ts P :=
  fun d tail hd htail => (h d tail hd htail).base

/-- What begins with no sign is an operand as it is. -/
theorem ReadsPostfixed.operand (h : ReadsPostfixed ts P)
    (hts : ∀ tail, (ts ++ tail).head? ≠ some "not" ∧ first? (ts ++ tail) ≠ some '-') :
    ReadsOperand ts P := by
  intro d tail hd htail
  refine (mark_reads _).bind fun start _ => ?_
  refine (keyword_misses (by decide) (hts tail).1).found.followedBy ?_
  refine (token_misses rfl (hts tail).2).found.followedBy ?_
  exact (h d tail hd htail.base).postfixed htail.noPoint

/-- An operand is an expression if no operator follows it. -/
theorem ReadsOperand.expression (h : ReadsOperand ts P) : ReadsExpression ts P := by
  intro d tail hd htail
  refine (mark_reads _).bind fun start _ => ?_
  refine (h d tail hd htail.operand).bind fun x hx => ?_
  have hsteps : Reads (bounded (steps (operandOf (nested d)))) tail tail (· = []) :=
    before_position.bounded fun fuel _ =>
      before_position.steps_stop fuel (infixOperator_misses htail)
  exact hsteps.followedBy (.result hx)

/-- A nested expression. -/
theorem ReadsExpression.inner (h : ReadsExpression ts P) {d : Nat} (hd : ts.length < d)
    {tail : List String} (htail : Ends tail) : Reads (nested d).inner (ts ++ tail) tail P := by
  obtain ⟨d, rfl⟩ := Nat.exists_eq_succ_of_ne_zero (Nat.ne_zero_of_lt hd)
  exact (h d tail (Nat.le_of_lt_succ hd) htail).required

/-- Parentheses make a primary of any expression. -/
theorem ReadsExpression.primary (h : ReadsExpression ts P) :
    ReadsPrimary ("(" :: ts ++ [")"]) P := by
  intro d tail hd _
  simp only [List.cons_append, List.append_assoc, List.nil_append, List.length_cons,
    List.length_append, List.length_nil] at hd ⊢
  refine (mark_reads _).bind fun start _ => (ahead_reads _).followedBy ?_
  rw [spaced_cons]
  refine (token_reads "(" _).bind fun _ _ => ?_
  refine (h.inner (by omega) (ends_cons (by decide) tail)).bind fun x hx => ?_
  exact (close_reads ")" tail).bind fun _ _ => ReadsAt.result hx

end Levels

-- ======================================================== how they begin

/-- An expression may begin so. -/
def begins (t : String) : Bool :=
  !(["type", "def"].contains t) && t.toList.head? != some ')'

/-- A primary may begin so. -/
def beginsPrimary (t : String) : Bool :=
  begins t && t != "not" && t.toList.head? != some '-'

/-- The tokens begin so, and not with a name that is bound. -/
def Opens (ok : String → Bool) (ts : List String) : Prop :=
  ∃ t rest, ts = t :: rest ∧ ok t = true ∧ (isName t = true → first? rest ≠ some ':')

section Opens

variable {ok : String → Bool} {ts us : List String}

/-- The token that would make a column of a name does not come from putting
lists together. -/
theorem first?_append (h : first? ts ≠ some ':') (hus : first? us ≠ some ':') :
    first? (ts ++ us) ≠ some ':' := by
  cases ts with
  | nil => exact hus
  | cons t ts => exact h

theorem Opens.append (h : Opens ok ts) (hus : first? us ≠ some ':') : Opens ok (ts ++ us) := by
  obtain ⟨t, rest, rfl, hok, hname⟩ := h
  exact ⟨t, rest ++ us, rfl, hok, fun ht => first?_append (hname ht) hus⟩

/-- What may begin a primary may begin an expression. -/
theorem Opens.weaken (h : Opens beginsPrimary ts) : Opens begins ts := by
  obtain ⟨t, rest, rfl, hok, hname⟩ := h
  simp only [beginsPrimary, Bool.and_eq_true] at hok
  exact ⟨t, rest, rfl, hok.1.1, hname⟩

/-- A token that is no name. -/
theorem opens_token {t : String} (hok : ok t = true) (ht : isName t = false) (rest : List String) :
    Opens ok (t :: rest) :=
  ⟨t, rest, rfl, hok, fun h => by rw [ht] at h; cases h⟩

/-- A name may begin a primary. -/
theorem opens_name {x : String} (hx : isName x = true) {rest : List String}
    (hrest : first? rest ≠ some ':') : Opens beginsPrimary (x :: rest) := by
  refine ⟨x, rest, rfl, ?_, fun _ => hrest⟩
  have hfirst {d : Char} (hd : isNameStart d = false) : x.toList.head? ≠ some d :=
    first?_of_isName hx [] hd
  have hne {w : String} (hw : reserved.contains w = true) : x ≠ w := ne_of_isName hx hw
  simp [beginsPrimary, begins, hfirst (d := ')') rfl, hfirst (d := '-') rfl, hne (w := "type") rfl,
    hne (w := "def") rfl, hne (w := "not") rfl]

/-- A token that begins like no word. -/
theorem opens_sign {t : String} {c : Char} {w : List Char} (ht : t.toList = c :: w)
    (hc : isNameStart c = false) (hclose : c ≠ ')') (hdash : c ≠ '-') (rest : List String) :
    Opens beginsPrimary (t :: rest) := by
  have hne {u : String} (hu : isWord u = true) : t ≠ u := by
    rintro rfl
    obtain ⟨d, v, hd, hstart, -⟩ := isWord_cases hu
    rw [ht, List.cons.injEq] at hd
    rw [hd.1, hstart] at hc
    cases hc
  refine opens_token ?_ ?_ rest
  · simp [beginsPrimary, begins, ht, hclose, hdash, hne (u := "type") rfl, hne (u := "def") rfl,
      hne (u := "not") rfl]
  · rw [← Bool.not_eq_true]
    intro hname
    exact hne (isName_cases hname).1 rfl

/-- A primary begins with no sign. -/
theorem Opens.noSign (h : Opens beginsPrimary ts) (tail : List String) :
    (ts ++ tail).head? ≠ some "not" ∧ first? (ts ++ tail) ≠ some '-' := by
  obtain ⟨t, rest, rfl, hok, -⟩ := h
  simp only [beginsPrimary, Bool.and_eq_true, bne_iff_ne, ne_eq] at hok
  exact ⟨fun h => hok.1.2 (Option.some.inj h), hok.2⟩

/-- An expression does not begin with the bracket that would close it. -/
theorem Opens.noClose (h : Opens begins ts) (tail : List String) :
    first? (ts ++ tail) ≠ some ')' := by
  obtain ⟨t, rest, rfl, hok, -⟩ := h
  simp only [begins, Bool.and_eq_true, bne_iff_ne, ne_eq] at hok
  exact hok.2

/-- An expression begins with none of the words that introduce a
definition. -/
theorem Opens.keyword_misses (h : Opens begins ts) {w : String} (hw : w = "type" ∨ w = "def")
    (tail : List String) : Misses (keyword w) (ts ++ tail) := by
  obtain ⟨t, rest, rfl, hok, -⟩ := h
  simp only [begins, Bool.and_eq_true, Bool.not_eq_true', List.contains_eq_mem, List.mem_cons,
    List.not_mem_nil, or_false, decide_eq_false_iff_not, not_or] at hok
  rcases hw with rfl | rfl
  · exact Reading.keyword_misses (by decide) fun h => hok.1.1 (Option.some.inj h)
  · exact Reading.keyword_misses (by decide) fun h => hok.1.2 (Option.some.inj h)

/-- An expression is no binding. -/
theorem Opens.boundName_misses (h : Opens ok ts) {tail : List String}
    (htail : first? tail ≠ some ':') : Misses boundName (ts ++ tail) := by
  obtain ⟨t, rest, rfl, -, hname⟩ := h
  cases ht : isName t with
  | true =>
      refine (ident_reads ht (rest ++ tail)).bind_misses fun x _ => ?_
      exact (token_misses rfl (first?_append (hname ht) htail)).bind _
  | false =>
      refine (ident_misses fun u hu => ?_).bind _
      cases hu
      exact ht

end Opens

-- ========================================================== primaries

section Primaries

variable {n : Nested} {ts b : List String} {P : Expr → Prop}

/-- Numbers and words are what none of the signs begins. -/
theorem primary_dispatch {a : List String} {c : Char} {rest : List Char}
    (htext : spaced a = c :: rest)
    (hsign : c ∉ ['\'', '@', '(', '\x7b'])
    (htime : c = 't' → rest.head? ≠ some '\'')
    (h : ∀ start, Reads (if c.isDigit then do return .number start (← number) else word n start)
      a b P) : Reads (primary n) a b P := by
  simp only [List.mem_cons, List.not_mem_nil, or_false, not_or] at hsign
  refine (mark_reads _).bind fun start _ => (ahead_reads _).followedBy ?_
  rw [htext]
  split
  · rename_i heq
    exact absurd (List.cons.inj heq).1 hsign.1
  · rename_i heq
    cases heq
    exact absurd rfl (htime rfl)
  · rename_i heq
    exact absurd (List.cons.inj heq).1 hsign.2.1
  · rename_i heq
    exact absurd (List.cons.inj heq).1 hsign.2.2.1
  · rename_i heq
    exact absurd (List.cons.inj heq).1 hsign.2.2.2
  · rename_i heq
    cases heq
    exact h start
  · rename_i heq
    cases heq

/-- Before a word the reader of words is tried. -/
theorem primary_word {w : String} (hw : isWord w = true)
    (h : ∀ start, Reads (word n start) (w :: ts) b P) : Reads (primary n) (w :: ts) b P := by
  obtain ⟨c, v, hc, hstart, hall⟩ := isWord_cases hw
  have htext : spaced (w :: ts) = c :: (v ++ following ts) := by
    rw [spaced_cons, hc, List.cons_append]
  refine primary_dispatch htext ?_ ?_ fun start => ?_
  · intro hmem
    have hsigns : ['\'', '@', '(', '\x7b'].all (!isNameStart ·) = true := by decide
    have hnone := List.all_eq_true.mp hsigns c hmem
    rw [hstart] at hnone
    cases hnone
  · -- a time has its quote right after the letter
    intro _ hquote
    cases v with
    | nil =>
        rw [List.nil_append] at hquote
        rcases following_cases ts with hf | ⟨rest, hf⟩
        · rw [hf] at hquote
          cases hquote
        · rw [hf] at hquote
          cases hquote
    | cons d v =>
        rw [List.all_cons, List.all_cons, Bool.and_eq_true, Bool.and_eq_true] at hall
        cases hquote
        exact absurd hall.2.1 (by decide)
  · rw [isDigit_of_isNameStart hstart]
    exact h start

/-- A number is read as a primary. -/
theorem primary_number {d : Decimal} (hd : d.negative = false) (ts : List String) :
    Reads (primary n) (d.write :: ts) ts fun x => x.unmarked = .number 0 d := by
  obtain ⟨c, w, heq, hc⟩ := Decimal.write_cons hd
  have htext : spaced (d.write :: ts) = c :: (w ++ following ts) := by
    rw [spaced_cons, heq, List.cons_append]
  refine primary_dispatch htext ?_ ?_ fun start => ?_
  · intro hmem
    have hsigns : ['\'', '@', '(', '\x7b'].all (!Char.isDigit ·) = true := by decide
    have hnone := List.all_eq_true.mp hsigns c hmem
    rw [hc] at hnone
    cases hnone
  · rintro rfl
    cases hc
  · rw [if_pos hc]
    exact (number_reads hd ts).followedBy (ReadsAt.result (by rw [Expr.unmarked]))

/-- What begins with a brace is read by the reader for braces. -/
theorem primary_braces (h : ∀ start, Reads (braces n start) ("\x7b" :: ts) b P) :
    Reads (primary n) ("\x7b" :: ts) b P := by
  refine (mark_reads _).bind fun start _ => (ahead_reads _).followedBy ?_
  rw [spaced_cons]
  exact h start

/-- A quoted text is read as a primary. -/
theorem primary_text (s : String) (ts : List String) :
    Reads (primary n) (Value.quote s :: ts) ts fun x => x.unmarked = .text 0 s := by
  refine (mark_reads _).bind fun start _ => (ahead_reads _).followedBy ?_
  rw [spaced_cons, quote_toList]
  refine (quoted_reads s ts).followedBy (ReadsAt.result ?_)
  rw [String.ofList_toList, Expr.unmarked]

end Primaries

-- ======================================================= all levels

/-- The same expression but for its marks. -/
abbrev Like (e x : Expr) : Prop := x.unmarked = e.unmarked

section Expressions

variable (style : Style)

/-- The expression is read back at every level, and begins as one. -/
structure IsRead (e : Expr) : Prop where
  opens : Opens begins (e.tokens style)
  opensBase : Opens beginsPrimary (grouped (!e.isPostfixed) (e.tokens style))
  expression : ReadsExpression (e.tokens style) (Like e)
  operand : ReadsOperand (grouped e.isChain (e.tokens style)) (Like e)
  base : ReadsPostfixed (grouped (!e.isPostfixed) (e.tokens style)) (Like e)

variable {style} {e : Expr}

/-- What is read as an operand with selections is read at every level. -/
theorem IsRead.ofPostfixed (hlevel : e.isPostfixed = true)
    (hopens : Opens beginsPrimary (e.tokens style)) (h : ReadsPostfixed (e.tokens style) (Like e)) :
    IsRead style e := by
  have hchain : e.isChain = false := by
    cases e <;> first | rfl | cases hlevel
  have hoperand := h.operand hopens.noSign
  refine ⟨hopens.weaken, ?_, hoperand.expression, ?_, ?_⟩
  · rw [hlevel]
    exact hopens
  · rw [hchain]
    exact hoperand
  · rw [hlevel]
    exact h

theorem IsRead.ofPrimary (hlevel : e.isPostfixed = true)
    (hopens : Opens beginsPrimary (e.tokens style)) (h : ReadsPrimary (e.tokens style) (Like e)) :
    IsRead style e :=
  .ofPostfixed hlevel hopens h.postfixed

/-- What is read as an operand is read at every level that allows it
without brackets. -/
theorem IsRead.ofOperand (hlevel : e.isPostfixed = false) (hchain : e.isChain = false)
    (hopens : Opens begins (e.tokens style)) (h : ReadsOperand (e.tokens style) (Like e)) :
    IsRead style e := by
  refine ⟨hopens, ?_, h.expression, ?_, ?_⟩
  · rw [hlevel]
    exact opens_token rfl rfl _
  · rw [hchain]
    exact h
  · rw [hlevel]
    exact h.expression.primary.postfixed

/-- What is read as an expression is read, in brackets where a level needs
them. -/
theorem IsRead.ofChain (hlevel : e.isPostfixed = false) (hchain : e.isChain = true)
    (hopens : Opens begins (e.tokens style)) (h : ReadsExpression (e.tokens style) (Like e)) :
    IsRead style e := by
  refine ⟨hopens, ?_, h, ?_, ?_⟩
  · rw [hlevel]
    exact opens_token rfl rfl _
  · rw [hchain]
    exact h.primary.postfixed.operand (opens_token rfl rfl _ : Opens beginsPrimary _).noSign
  · rw [hlevel]
    exact h.primary.postfixed

end Expressions

end Reading

end RelQuery
