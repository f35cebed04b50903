/-
What one token takes off a text.

Readers of tokens skip blanks first, so it is the text from the next
token on that decides. `Takes r a behind P` says that a reader takes
what stands in `a` before `behind`, and no more: a word ends where no
character of a name follows, a quoted text where no further quote does,
a number before anything but a digit or a point. `Declines r a` says
that the reader misses where the text goes on with `a`.

Whether the tokens of a text are set apart or touch makes no difference
here. It decides what `behind` can be.
-/
import RelQuery.Proofs.Grammar.Triple
import RelQuery.Proofs.Grammar.Writing
import RelQuery.Proofs.Number.Digits

namespace RelQuery

open Text

namespace Reading

variable {α : Type} {a behind : List Char} {t : String}

/-- The text goes on with `text` from the next token. -/
abbrev Faces (c : Cursor) (text : List Char) : Prop :=
  c.skip.rest = text

/-- Before the text `a` the reader takes what stands in front of
`behind`. -/
def Takes (r : Reading α) (a behind : List Char) (P : α → Prop) : Prop :=
  ∀ c, Faces c a → ∃ x n, r c = .ok (x, c.skip.advance n behind) ∧ P x

/-- Before the text `a` the reader misses, and an alternative may be
tried. -/
abbrev Declines (r : Reading α) (a : List Char) : Prop :=
  MissesAt Faces r a

-- ====================================================== fixed tokens

/-- A mark in front of a text is found there. -/
theorem after?_append (mark rest : List Char) : Text.after? mark (mark ++ rest) = some rest := by
  induction mark with
  | nil => rfl
  | cons c mark ih =>
      rw [List.cons_append, Text.after?, beq_self_eq_true, if_pos rfl]
      exact ih

/-- A text that begins with another character does not begin with the mark. -/
theorem after?_eq_none {mark text : List Char} {d : Char} (hmark : mark.head? = some d)
    (h : text.head? ≠ some d) : Text.after? mark text = none := by
  obtain ⟨w, rfl⟩ := List.head?_eq_some_iff.mp hmark
  cases text with
  | nil => rfl
  | cons e text =>
      rw [List.head?_cons, ne_eq, Option.some.injEq] at h
      rw [Text.after?, if_neg (by simpa using Ne.symm h)]

/-- A token takes itself. -/
theorem token_takes (t : String) (behind : List Char) :
    Takes (token t) (t.toList ++ behind) behind fun _ => True := by
  intro c hc
  refine ⟨(), byteLength t.toList, ?_, trivial⟩
  unfold token
  dsimp only
  rw [hc, after?_append]

/-- A text with another beginning has not the token. -/
theorem token_declines (h : Text.after? t.toList a = none) : Declines (token t) a := by
  intro c hc
  refine ⟨{ cut := false, place := c.skip }, ?_, rfl⟩
  unfold token
  dsimp only
  rw [hc, h]

-- ============================================================== words

/-- A letter or a low line, by its code. -/
theorem isNameStart_cases {c : Char} (h : isNameStart c = true) :
    (65 ≤ c.toNat ∧ c.toNat ≤ 90) ∨ (97 ≤ c.toNat ∧ c.toNat ≤ 122) ∨ c = '_' := by
  have hcodes : (decide ('A'.val ≤ c.val ∧ c.val ≤ 'Z'.val) ||
      (decide ('a'.val ≤ c.val) && decide (c.val ≤ 'z'.val)) || c == '_') = true := h
  simp only [Bool.or_eq_true, Bool.and_eq_true, decide_eq_true_eq, beq_iff_eq,
    UInt32.le_iff_toNat_le] at hcodes
  rcases hcodes with (hupper | hlower) | hsign
  · exact .inl hupper
  · exact .inr (.inl hlower)
  · exact .inr (.inr hsign)

theorem isNameChar_eq (c : Char) : isNameChar c = (isNameStart c || c.isDigit) := by
  show ((c.isAlpha || c.isDigit) || c == '_') = ((c.isAlpha || c == '_') || c.isDigit)
  rw [Bool.or_right_comm]

theorem isDigit_of_isNameStart {c : Char} (h : isNameStart c = true) : c.isDigit = false := by
  rw [← Bool.not_eq_true]
  intro hc
  have hdigit : 48 ≤ c.toNat ∧ c.toNat ≤ 57 := Char.isDigit_iff_toNat.mp hc
  rcases isNameStart_cases h with hupper | hlower | rfl
  · omega
  · omega
  · cases hc

theorem isNameStart_of_isDigit {c : Char} (h : c.isDigit = true) : isNameStart c = false := by
  rw [← Bool.not_eq_true]
  intro hstart
  rw [isDigit_of_isNameStart hstart] at h
  cases h

/-- A word begins with a letter and goes on with characters of names. -/
theorem isWord_cases {w : String} (h : isWord w = true) :
    ∃ c v, w.toList = c :: v ∧ isNameStart c = true ∧ (c :: v).all isNameChar = true := by
  unfold isWord at h
  rw [Bool.and_eq_true] at h
  cases hw : w.toList with
  | nil =>
      rw [hw] at h
      cases h.1
  | cons c v =>
      rw [hw] at h
      exact ⟨c, v, rfl, h.1, h.2⟩

/-- A keyword ends where no character of a name follows. -/
theorem keyword_takes (t : String) (hend : behind.head?.any isNameChar = false) :
    Takes (keyword t) (t.toList ++ behind) behind fun _ => True := by
  intro c hc
  refine ⟨(), byteLength t.toList, ?_, trivial⟩
  unfold keyword
  dsimp only
  rw [hc, after?_append]
  dsimp only
  rw [hend]
  rfl

/-- A text with another beginning has not the keyword. -/
theorem keyword_declines (h : Text.after? t.toList a = none) : Declines (keyword t) a := by
  intro c hc
  refine ⟨{ cut := false, place := c.skip }, ?_, rfl⟩
  unfold keyword
  dsimp only
  rw [hc, h]

-- ============================================================== names

theorem isName_cases {x : String} (h : isName x = true) :
    isWord x = true ∧ reserved.contains x = false := by
  rw [isName, Bool.and_eq_true, Bool.not_eq_true'] at h
  exact h

/-- What is taken ends before a character that does not belong to it. -/
theorem takeWhile_stops {p : Char → Bool} {behind : List Char}
    (hend : behind.head?.any p = false) : behind.takeWhile p = [] := by
  cases behind with
  | nil => rfl
  | cons c rest =>
      rw [List.head?_cons, Option.any_some] at hend
      rw [List.takeWhile_cons, hend]
      rfl

/-- The word in front of a text ends where no name character follows. -/
theorem leadingName_append {w : String} {behind : List Char} (hw : isWord w = true)
    (hend : behind.head?.any isNameChar = false) :
    leadingName (w.toList ++ behind) = w.toList := by
  obtain ⟨c, v, hwc, hstart, hall⟩ := isWord_cases hw
  have htake : (w.toList ++ behind).takeWhile isNameChar = w.toList := by
    rw [List.takeWhile_append_of_pos (by simpa [hwc] using hall), takeWhile_stops hend,
      List.append_nil]
  unfold leadingName
  rw [htake, hwc, List.cons_append, List.head?_cons, Option.any_some, hstart, if_pos rfl]

/-- Where no name begins there is none. -/
theorem leadingName_noWord {text : List Char} (h : text.head?.any isNameStart = false) :
    leadingName text = [] := by
  unfold leadingName
  rw [h]
  rfl

/-- A name takes itself, if no character of a name follows. -/
theorem ident_takes {x : String} (hx : isName x = true)
    (hend : behind.head?.any isNameChar = false) :
    Takes ident (x.toList ++ behind) behind (· = x) := by
  intro c hc
  refine ⟨x, x.toList.length, ?_, rfl⟩
  obtain ⟨hword, hreserved⟩ := isName_cases hx
  obtain ⟨d, v, hwd, -⟩ := isWord_cases hword
  unfold ident
  dsimp only
  rw [hc, leadingName_append hword hend, String.ofList_toList, hreserved, List.drop_left]
  rw [hwd]
  rfl

/-- A reserved word is no name. -/
theorem ident_declines_reserved {w : String} (hw : isWord w = true)
    (hreserved : reserved.contains w = true) (hend : behind.head?.any isNameChar = false) :
    Declines ident (w.toList ++ behind) := by
  intro c hc
  refine ⟨{ cut := false, place := c.skip }, ?_, rfl⟩
  unfold ident
  dsimp only
  rw [hc, leadingName_append hw hend, String.ofList_toList, hreserved, Bool.or_true]
  rfl

/-- Where no name begins none is taken. -/
theorem ident_declines (h : a.head?.any isNameStart = false) : Declines ident a := by
  intro c hc
  refine ⟨{ cut := false, place := c.skip }, ?_, rfl⟩
  unfold ident
  dsimp only
  rw [hc, leadingName_noWord h]
  rfl

-- ========================================================== operators

theorem infixOperator_declines (h : leadingOperator? a = none) : Declines infixOperator a := by
  intro c hc
  refine ⟨{ cut := false, place := c.skip }, ?_, rfl⟩
  unfold infixOperator
  dsimp only
  rw [hc, h]

-- ============================================================== texts

theorem quote_toList (s : String) :
    (Value.quote s).toList = '\'' :: (Value.quoteChars s.toList ++ ['\'']) := by
  simp [Value.quote]

/-- A quoted text is read up to its closing quote: the induction is on the
text, where a quote stands as two. -/
theorem quotedRest_quoteChars (s : List Char) {rest : List Char} (hrest : rest.head? ≠ some '\'') :
    ∃ n, quotedRest (Value.quoteChars s ++ '\'' :: rest) = some (s, n, rest) := by
  fun_induction Value.quoteChars s with
  | case1 =>
      refine ⟨1, ?_⟩
      rw [List.nil_append, quotedRest]
      · rfl
      · intro tail _ heq
        rw [heq] at hrest
        exact hrest rfl
  | case2 s ih =>
      obtain ⟨n, hn⟩ := ih
      refine ⟨n + 2, ?_⟩
      rw [List.cons_append, List.cons_append, quotedRest, hn]
      rfl
  | case3 c s hc ih =>
      obtain ⟨n, hn⟩ := ih
      have hquote : c ≠ '\'' := hc
      refine ⟨n + c.utf8Size, ?_⟩
      rw [List.cons_append, quotedRest, if_neg (by simpa using hquote), hn]
      · rfl
      · intro tail heq
        exact absurd heq hquote

/-- A quoted text takes itself, if no other quote follows. -/
theorem quoted_takes (s : String) (hend : behind.head? ≠ some '\'') :
    Takes quoted ((Value.quote s).toList ++ behind) behind (· = s.toList) := by
  intro c hc
  obtain ⟨n, hn⟩ := quotedRest_quoteChars s.toList hend
  refine ⟨s.toList, n + 1, ?_, rfl⟩
  unfold quoted
  dsimp only
  rw [hc, quote_toList, List.cons_append, List.append_assoc, List.singleton_append]
  simp only [hn]

-- ============================================================ numbers

/-- The number in front of a text ends where neither a digit nor a point
follows. -/
theorem leadingNumber_append {d : Decimal} {behind : List Char} (hd : d.negative = false)
    (hend : ∀ c ∈ behind.head?, c.isDigit = false ∧ c ≠ '.') :
    leadingNumber (d.write.toList ++ behind) = d.write.toList := by
  -- a number is digits, and perhaps a point and more digits
  obtain ⟨w, f, heq, -, hf, hdigit⟩ := Decimal.write_eq hd
  have hwhole : ∀ c ∈ w, c.isDigit = true := fun c hc => hdigit c (List.mem_append_left f hc)
  have hfraction : ∀ c ∈ f, c.isDigit = true := fun c hc => hdigit c (List.mem_append_right w hc)
  have hstop : behind.head?.any Char.isDigit = false := by
    cases behind with
    | nil => rfl
    | cons c rest => exact (hend c rfl).1
  have htake := takeWhile_stops hstop
  have hdrop : behind.dropWhile Char.isDigit = behind := by
    cases behind with
    | nil => rfl
    | cons c rest => rw [List.dropWhile_cons, (hend c rfl).1]; rfl
  rw [heq]
  unfold leadingNumber
  dsimp only
  by_cases hs : d.scale = 0
  -- without a fraction the number must stop where no point follows
  · rw [if_pos hs, List.append_nil, List.takeWhile_append_of_pos hwhole,
      List.dropWhile_append_of_pos hwhole, htake, hdrop, List.append_nil]
    split
    · rename_i rest
      exact absurd rfl (hend '.' rfl).2
    · rfl
  -- with a fraction there are digits behind the point, so it is part of the
  -- number
  · have hsome : f.isEmpty = false := by
      cases f with
      | nil => exact absurd hf.symm hs
      | cons c f => rfl
    rw [if_neg hs, List.append_assoc, List.takeWhile_append_of_pos hwhole,
      List.dropWhile_append_of_pos hwhole]
    show (if ((f ++ behind).takeWhile Char.isDigit).isEmpty then w ++ [] else
      w ++ [] ++ '.' :: (f ++ behind).takeWhile Char.isDigit) = w ++ '.' :: f
    rw [List.takeWhile_append_of_pos hfraction, htake, List.append_nil, List.append_nil, hsome]
    rfl

/-- A number takes itself, if neither a digit nor a point follows. -/
theorem number_takes {d : Decimal} (hd : d.negative = false)
    (hend : ∀ c ∈ behind.head?, c.isDigit = false ∧ c ≠ '.') :
    Takes number (d.write.toList ++ behind) behind (· = d) := by
  intro c hc
  refine ⟨d, d.write.toList.length, ?_, rfl⟩
  obtain ⟨e, w, heq, -⟩ := Decimal.write_cons hd
  have hsome : d.write.toList.isEmpty = false := by
    rw [heq]
    rfl
  unfold number
  dsimp only
  rw [hc, leadingNumber_append hd hend, hsome, Decimal.read?_write hd, List.drop_left]
  rfl

end Reading

end RelQuery
