/-
Readers on a text whose tokens may touch.

A displayed value has no space before a comma or a brace, so that its
text is not a row of tokens set apart. The triples here speak of the
text itself. Where a reader stands among blanks does not matter, as all
of them skip blanks first; what counts is the text from the next token
on. `Accepts r a b P` says that before the text `a` the reader succeeds
with a result of which `P` holds, and that the text goes on with `b`.

What a reader takes may have one space behind it that is not counted
(`Leads`), and what ends a token is part of the rules: a word needs
something behind it that is no character of a name.
-/
import RelQuery.Proofs.Grammar.Cursors
import RelQuery.Proofs.Grammar.Token

namespace RelQuery

open Text

namespace Reading

-- ============================================================ blanks

/-- The text begins with a token, not with a blank or a comment. -/
def Firm (text : List Char) : Prop :=
  ∀ c ∈ text.head?, isBlank c = false ∧ c ≠ '-'

/-- From `text` on, the next token begins with `next`. -/
def Leads (text next : List Char) : Prop :=
  ∀ offset, (Cursor.mk offset text).skip.rest = next

/-- A text that begins with neither a blank nor a comment leads to itself. -/
theorem Firm.leads {text : List Char} (h : Firm text) : Leads text text := by
  intro offset
  cases text with
  | nil => rfl
  | cons c rest =>
      obtain ⟨hblank, hdash⟩ := h c rfl
      show (Cursor.skipFrom false offset (c :: rest)).rest = _
      unfold Cursor.skipFrom
      rw [if_neg (by decide), if_neg (by simp [hblank])]
      split
      · exact absurd rfl hdash
      · rfl

/-- One space more before a token changes nothing. -/
theorem Firm.leads_space {text : List Char} (h : Firm text) : Leads (' ' :: text) text :=
  fun offset => h.leads (offset + 1)

/-- Skipping leaves no more characters than there were. -/
theorem length_skip_le (c : Cursor) : c.skip.rest.length ≤ c.rest.length := by
  have hfrom (inside : Bool) (offset : Nat) (text : List Char) :
      (Cursor.skipFrom inside offset text).rest.length ≤ text.length := by
    fun_induction Cursor.skipFrom inside offset text with
    | case1 offset => exact Nat.le_refl _
    | case2 offset c rest ih => exact Nat.le_succ_of_le ih
    | case3 inside offset c rest hinside hblank ih => exact Nat.le_succ_of_le ih
    | case4 inside offset hinside rest hblank ih => exact Nat.le_succ_of_le ih
    | case5 inside offset c rest hinside hblank hdash => exact Nat.le_refl _
  exact hfrom false c.offset c.rest

-- =========================================================== triples

/-- Cursors that face a text are positions, with the characters left to
read. -/
theorem faces_position : Position Faces where
  skip := fun {c a} (hc : c.skip.rest = a) => by
    show c.skip.skip.rest = a
    rw [c.skip_skip, hc]
  length_le := fun {c a} (hc : c.skip.rest = a) => by
    rw [← hc]
    exact Nat.le_succ_of_le (length_skip_le c)

/-- Before the text `a` the reader succeeds, and the text goes on with
`b`. -/
abbrev Accepts {α : Type} (r : Reading α) (a b : List Char) (P : α → Prop) : Prop :=
  ReadsAt Faces r a b P

/-- It is enough to tell the text right behind what is taken. -/
theorem Accepts.ofToken {α : Type} {r : Reading α} {a behind b : List Char} {P : α → Prop}
    (hbehind : Leads behind b) (h : Takes r a behind P) : Accepts r a b P := by
  intro c hc
  obtain ⟨x, n, hrun, hx⟩ := h c hc
  exact ⟨x, _, hrun, hx, hbehind _⟩

theorem mark_accepts (a : List Char) : Accepts mark a a fun _ => True :=
  faces_position.mark a

theorem ahead_accepts (a : List Char) : Accepts ahead a a (· = a) :=
  faces_position.ahead fun _ hc => hc

-- ============================================================ tokens

section Tokens

variable {behind b : List Char}

theorem token_accepts (t : String) (h : Leads behind b) :
    Accepts (token t) (t.toList ++ behind) b fun _ => True :=
  .ofToken h (token_takes t behind)

theorem close_accepts (t : String) (h : Leads behind b) :
    Accepts (close t) (t.toList ++ behind) b fun _ => True :=
  (token_accepts t h).required

theorem expect_accepts (t : String) (h : Leads behind b) :
    Accepts (expect t) (t.toList ++ behind) b fun _ => True :=
  (token_accepts t h).wanting

theorem keyword_accepts (t : String) (h : Leads behind b)
    (hend : behind.head?.any isNameChar = false) :
    Accepts (keyword t) (t.toList ++ behind) b fun _ => True :=
  .ofToken h (keyword_takes t hend)

theorem ident_accepts {x : String} (hx : isName x = true) (h : Leads behind b)
    (hend : behind.head?.any isNameChar = false) :
    Accepts ident (x.toList ++ behind) b (· = x) :=
  .ofToken h (ident_takes hx hend)

theorem quoted_accepts (s : String) (h : Leads behind b) (hend : behind.head? ≠ some '\'') :
    Accepts quoted ((Value.quote s).toList ++ behind) b (· = s.toList) :=
  .ofToken h (quoted_takes s hend)

theorem number_accepts {d : Decimal} (hd : d.negative = false) (h : Leads behind b)
    (hend : ∀ c ∈ behind.head?, c.isDigit = false ∧ c ≠ '.') :
    Accepts number (d.write.toList ++ behind) b (· = d) :=
  .ofToken h (number_takes hd hend)

end Tokens

end Reading

end RelQuery
