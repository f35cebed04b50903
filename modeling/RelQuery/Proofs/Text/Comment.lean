/-
Blanks, lines and comments of a text.

Whether a text holds anything but blanks and comments is told line by
line. It can as well be told from the front (`onlyComments_blank`,
`onlyComments_dashes`, `onlyComments_cons`): a blank is passed over, two
dashes take the rest of their line along, and any other character is
code. A text of blanks and comments is built up in that way
(`comments_induction`).
-/
import Mathlib.Data.List.TakeWhile
import RelQuery.Session.Piece

namespace RelQuery

namespace Text

-- ==================================================== byte positions

/-- Summing from somewhere adds to where the sum began. -/
theorem foldl_utf8Size (text : List Char) (n : Nat) :
    text.foldl (fun n c => n + c.utf8Size) n = n + byteLength text := by
  unfold byteLength
  induction text generalizing n with
  | nil => rfl
  | cons c text ih =>
      rw [List.foldl_cons, List.foldl_cons, ih, ih (0 + c.utf8Size)]
      omega

theorem byteLength_cons (c : Char) (text : List Char) :
    byteLength (c :: text) = c.utf8Size + byteLength text := by
  rw [byteLength, List.foldl_cons, foldl_utf8Size, Nat.zero_add]

theorem byteLength_append (a b : List Char) :
    byteLength (a ++ b) = byteLength a + byteLength b := by
  rw [byteLength, List.foldl_append, foldl_utf8Size]
  rfl

/-- A character takes at least one byte. -/
theorem length_le_byteLength (text : List Char) : text.length ≤ byteLength text := by
  induction text with
  | nil => exact Nat.le_refl 0
  | cons c rest ih =>
      have hsize := c.utf8Size_pos
      rw [byteLength_cons, List.length_cons]
      omega

-- ============================================================ blanks

/-- Blanks in front are those of the first text, and of the second if the
first is all blank. -/
theorem trimStart_append (a b : List Char) :
    trimStart (a ++ b) = if allBlank a then trimStart b else trimStart a ++ b := by
  induction a with
  | nil => rfl
  | cons c a ih =>
      unfold trimStart allBlank at ih ⊢
      rw [List.cons_append, List.dropWhile_cons, List.dropWhile_cons, List.all_cons]
      cases isBlank c with
      | true => simpa using ih
      | false => rfl

theorem trimStart_eq_nil {text : List Char} : trimStart text = [] ↔ allBlank text = true := by
  rw [trimStart, allBlank, List.dropWhile_eq_nil_iff, List.all_eq_true]

/-- A blank at the end of a text is trimmed. -/
theorem trim_snoc {c : Char} (hc : isBlank c = true) (text : List Char) :
    trim (text ++ [c]) = trim text := by
  have hend (text : List Char) : trimEnd (text ++ [c]) = trimEnd text := by
    simp [trimEnd, hc]
  unfold trim
  rw [trimStart_append]
  split
  · rename_i hblank
    rw [trimStart_eq_nil.mpr hblank]
    simp [trimStart, hc]
  · exact hend _

/-- The blanks in front of a text stay those when a character is added at
its end. -/
theorem takeWhile_isBlank_snoc {text : List Char} (h : allBlank text = false) (c : Char) :
    (text ++ [c]).takeWhile isBlank = text.takeWhile isBlank := by
  induction text with
  | nil => cases h
  | cons d text ih =>
      unfold allBlank at h ih
      rw [List.all_cons] at h
      rw [List.cons_append, List.takeWhile_cons, List.takeWhile_cons]
      cases hd : isBlank d with
      | true =>
          rw [hd] at h
          rw [if_pos rfl, if_pos rfl, ih h]
      | false => rfl

/-- Trimming leaves no more characters than there were. -/
theorem length_trim_le (text : List Char) : (trim text).length ≤ text.length := by
  have hdrop (l : List Char) : (l.dropWhile isBlank).length ≤ l.length :=
    (List.dropWhile_sublist _).length_le
  calc (trim text).length = ((trimStart text).reverse.dropWhile isBlank).length := by
        rw [trim, trimEnd, List.length_reverse]
    _ ≤ (trimStart text).reverse.length := hdrop _
    _ = (trimStart text).length := List.length_reverse
    _ ≤ text.length := hdrop _

/-- A trimmed text begins with no blank. -/
theorem isBlank_head_of_trim {c : Char} {rest : List Char} (h : trim (c :: rest) = c :: rest) :
    isBlank c = false := by
  rw [← Bool.not_eq_true]
  intro hc
  have hskip : trim (c :: rest) = trim rest := by
    simp only [trim, trimStart, List.dropWhile_cons, hc, if_pos]
  have hle := length_trim_le rest
  rw [← hskip, h, List.length_cons] at hle
  omega

theorem allBlank_takeWhile (text : List Char) : allBlank (text.takeWhile isBlank) = true :=
  List.all_takeWhile

theorem allBlank_cons {c : Char} {text : List Char} :
    allBlank (c :: text) = true ↔ isBlank c = true ∧ allBlank text = true := by
  rw [allBlank, List.all_cons, Bool.and_eq_true]
  rfl

/-- Blanks at the end are trimmed away. -/
theorem trim_append_blank {blank : List Char} (hblank : allBlank blank = true) (text : List Char) :
    trim (text ++ blank) = trim text := by
  induction blank generalizing text with
  | nil => rw [List.append_nil]
  | cons c blank ih =>
      obtain ⟨hc, hrest⟩ := allBlank_cons.mp hblank
      rw [← List.singleton_append, ← List.append_assoc, ih hrest, trim_snoc hc]

theorem trim_blank_append {blank : List Char} (hblank : allBlank blank = true) (text : List Char) :
    trim (blank ++ text) = trim text := by
  rw [trim, trimStart_append, if_pos hblank, trim]

/-- A trimmed text does not end with blanks. -/
theorem eq_nil_of_trim {text blank : List Char} (htrim : trim text = text) (hend : blank <:+ text)
    (hblank : allBlank blank = true) : blank = [] := by
  obtain ⟨rest, rfl⟩ := hend
  have hle := length_trim_le rest
  rw [← trim_append_blank hblank rest, htrim, List.length_append] at hle
  exact List.length_eq_zero_iff.mp (by omega)

/-- A trimmed text has no blanks in front. -/
theorem takeWhile_isBlank_of_trim {text : List Char} (htrim : trim text = text) :
    text.takeWhile isBlank = [] := by
  cases text with
  | nil => rfl
  | cons c rest =>
      rw [List.takeWhile_cons, isBlank_head_of_trim htrim]
      rfl

/-- Behind blanks the first character that is none is that of the text. -/
theorem head?_of_blank_append {blank text : List Char} {c : Char} (hblank : allBlank blank = true)
    (hc : isBlank c = false) (h : (blank ++ text).head? = some c) : text.head? = some c := by
  cases blank with
  | nil => exact h
  | cons d blank =>
      cases h
      rw [(allBlank_cons.mp hblank).1] at hc
      cases hc

/-- A text is what is left of it by trimming, with blanks around. -/
theorem exists_trim (text : List Char) : ∃ blank, allBlank blank = true ∧
    text = text.takeWhile isBlank ++ (trim text ++ blank) := by
  have hend (text : List Char) : trimEnd text ++
      (text.reverse.takeWhile isBlank).reverse = text := by
    rw [trimEnd, ← List.reverse_append, List.takeWhile_append_dropWhile, List.reverse_reverse]
  refine ⟨((trimStart text).reverse.takeWhile isBlank).reverse, ?_, ?_⟩
  · rw [allBlank, List.all_reverse]
    exact allBlank_takeWhile _
  · rw [trim, hend, trimStart, List.takeWhile_append_dropWhile]

/-- Trimming twice is trimming once. -/
theorem trim_trim (text : List Char) : trim (trim text) = trim text := by
  obtain ⟨blank, hblank, htext⟩ := exists_trim text
  have hwhole := congrArg trim htext
  rw [trim_blank_append (allBlank_takeWhile text), trim_append_blank hblank] at hwhole
  exact hwhole.symm

-- ============================================================= lines

/-- The rest of a line ends where the line does. -/
theorem restOfLine_append (a b : List Char) :
    restOfLine (a ++ '\n' :: b) = restOfLine a := by
  induction a with
  | nil => rfl
  | cons c a ih =>
      unfold restOfLine at ih ⊢
      rw [List.cons_append, List.takeWhile_cons, List.takeWhile_cons, ih]

/-- Without a line feed the whole text is one line. -/
theorem restOfLine_eq_self {text : List Char} (h : '\n' ∉ text) : restOfLine text = text := by
  rw [restOfLine, List.takeWhile_eq_self_iff]
  intro c hc
  rw [bne_iff_ne]
  rintro rfl
  exact h hc

theorem restOfLine_cons {c : Char} (hc : c ≠ '\n') (rest : List Char) :
    restOfLine (c :: rest) = c :: restOfLine rest := by
  rw [restOfLine, List.takeWhile_cons, if_pos (by simpa using hc)]
  rfl

/-- What follows the rest of the line, from its newline on. -/
def pastLine (text : List Char) : List Char :=
  text.dropWhile (· != '\n')

/-- The text is empty or begins with a newline. -/
def EndsLine (text : List Char) : Prop :=
  text = [] ∨ ∃ rest, text = '\n' :: rest

theorem restOfLine_append_pastLine (text : List Char) : restOfLine text ++ pastLine text = text :=
  List.takeWhile_append_dropWhile

/-- No line holds a line feed. -/
theorem not_mem_restOfLine (text : List Char) : '\n' ∉ restOfLine text := by
  intro h
  have hne := List.mem_takeWhile_imp h
  cases hne

theorem head?_of_restOfLine {text : List Char} {c : Char}
    (h : (restOfLine text).head? = some c) : text.head? = some c := by
  rw [← restOfLine_append_pastLine text, List.head?_append, h]
  rfl

theorem pastLine_cons {c : Char} (hc : c ≠ '\n') (rest : List Char) :
    pastLine (c :: rest) = pastLine rest := by
  rw [pastLine, List.dropWhile_cons, if_pos (by simpa using hc)]
  rfl

/-- What is past a line begins with a line feed, or there is nothing. -/
theorem endsLine_pastLine (text : List Char) : EndsLine (pastLine text) := by
  induction text with
  | nil => exact .inl rfl
  | cons c rest ih =>
      by_cases hc : c = '\n'
      · rw [hc]
        exact .inr ⟨rest, rfl⟩
      · rw [pastLine_cons hc]
        exact ih

theorem length_pastLine_le (text : List Char) : (pastLine text).length ≤ text.length :=
  (List.dropWhile_sublist _).length_le

/-- Past a line that goes on into another text is past it there. -/
theorem pastLine_append {a : List Char} (h : '\n' ∉ a) (b : List Char) :
    pastLine (a ++ b) = pastLine b := by
  induction a with
  | nil => rfl
  | cons c a ih =>
      rw [List.mem_cons, not_or] at h
      rw [List.cons_append, pastLine_cons (Ne.symm h.1), ih h.2]

/-- If the first line of a text is blank, so is that of its beginning. -/
theorem allBlank_restOfLine_append {a b : List Char} (h : allBlank (restOfLine (a ++ b)) = true) :
    allBlank (restOfLine a) = true := by
  induction a with
  | nil => rfl
  | cons c a ih =>
      by_cases hc : c = '\n'
      · rw [hc]
        rfl
      · rw [List.cons_append, restOfLine_cons hc, allBlank_cons] at h
        rw [restOfLine_cons hc, allBlank_cons]
        exact ⟨h.1, ih h.2⟩

/-- Blanks behind a blank line leave it blank. -/
theorem allBlank_restOfLine_append_blank {a b : List Char} (ha : allBlank (restOfLine a) = true)
    (hb : allBlank b = true) : allBlank (restOfLine (a ++ b)) = true := by
  induction a with
  | nil =>
      rw [← restOfLine_append_pastLine b, allBlank, List.all_append, Bool.and_eq_true] at hb
      exact hb.1
  | cons c a ih =>
      by_cases hc : c = '\n'
      · rw [hc]
        rfl
      · rw [restOfLine_cons hc, allBlank_cons] at ha
        rw [List.cons_append, restOfLine_cons hc, allBlank_cons]
        exact ⟨ha.1, ih ha.2⟩

-- ========================================================== comments

/-- A blank at the end of a line changes nothing about its code. -/
theorem beforeComment_snoc {c : Char} (hc : isBlank c = true) (line : List Char) :
    allBlank (beforeComment (line ++ [c])) = allBlank (beforeComment line) := by
  have hdash : c ≠ '-' := by
    rintro rfl
    cases hc
  fun_induction beforeComment line with
  | case1 rest => rfl
  | case2 d rest hrest ih =>
      have hcons : beforeComment (d :: rest ++ [c]) = d :: beforeComment (rest ++ [c]) := by
        rw [List.cons_append, beforeComment]
        intro rest' hd heq
        cases rest with
        | nil =>
            cases heq
            exact hdash rfl
        | cons e rest =>
            cases heq
            exact hrest _ hd rfl
      rw [hcons]
      unfold allBlank at ih ⊢
      rw [List.all_cons, List.all_cons, ih]
  | case3 =>
      unfold allBlank beforeComment
      simp [hc, beforeComment]

/-- A carriage return at the end of a line makes no difference to its
comment. -/
theorem beforeComment_dropReturn (line : List Char) :
    allBlank (beforeComment (dropReturn line).reverse) = allBlank (beforeComment line.reverse) := by
  unfold dropReturn
  split
  · rw [List.reverse_cons, beforeComment_snoc (by decide)]
  · rfl

/-- A blank at the end of a text adds nothing but blanks to its lines. -/
theorem linesFrom_snoc {c : Char} (hc : isBlank c = true) (line text : List Char) :
    (linesFrom line (text ++ [c])).all (fun line => allBlank (beforeComment line))
      = (linesFrom line text).all fun line => allBlank (beforeComment line) := by
  induction text generalizing line with
  | nil =>
      have hsnoc := beforeComment_snoc hc line.reverse
      have hreturn := beforeComment_dropReturn line
      rw [List.nil_append, linesFrom, linesFrom, linesFrom, linesFrom]
      cases line with
      | nil =>
          split
          · rfl
          · simpa [allBlank, beforeComment] using hsnoc
      | cons d line =>
          split
          · simpa using hreturn
          · simpa using hsnoc
  | cons d text ih =>
      rw [List.cons_append, linesFrom, linesFrom]
      split
      · rw [List.all_cons, List.all_cons, ih]
      · exact ih _

/-- A blank at the end of a text makes it neither code nor comment. -/
theorem onlyComments_snoc {c : Char} (hc : isBlank c = true) (text : List Char) :
    onlyComments (text ++ [c]) = onlyComments text :=
  linesFrom_snoc hc [] text

/-- Blanks alone are no more than comments. -/
theorem onlyComments_reverse_of_allBlank {taken : List Char} (h : allBlank taken = true) :
    onlyComments taken.reverse = true := by
  induction taken with
  | nil => rfl
  | cons c taken ih =>
      unfold allBlank at h ih
      rw [List.all_cons, Bool.and_eq_true] at h
      rw [List.reverse_cons, onlyComments_snoc h.1]
      exact ih h.2

/-- If all lines of a text are blank before their comments, then so is the
first. -/
theorem allBlank_of_linesFrom {line text : List Char}
    (h : (linesFrom line text).all (fun line => allBlank (beforeComment line)) = true) :
    allBlank (beforeComment (line.reverse ++ restOfLine text)) = true := by
  induction text generalizing line with
  | nil =>
      rw [linesFrom] at h
      rw [restOfLine, List.takeWhile_nil, List.append_nil]
      cases line with
      | nil => rfl
      | cons d line => simpa using h
  | cons d text ih =>
      rw [linesFrom] at h
      split at h
      · rename_i hnew
        rw [List.all_cons, Bool.and_eq_true] at h
        have hrest : restOfLine (d :: text) = [] := by
          rw [eq_of_beq hnew]
          rfl
        rw [hrest, List.append_nil, ← beforeComment_dropReturn]
        exact h.1
      · rename_i hnew
        rw [restOfLine_cons (by simpa using hnew)]
        simpa using ih h

/-- A text that begins with code is more than comments. -/
theorem onlyComments_cons {c : Char} {rest : List Char} (hc : isBlank c = false)
    (hdash : c = '-' → rest.head? ≠ some '-') : onlyComments (c :: rest) = false := by
  rw [← Bool.not_eq_true]
  intro hcomments
  have hline : allBlank (beforeComment (restOfLine (c :: rest))) = true :=
    allBlank_of_linesFrom hcomments
  have hnew : c ≠ '\n' := by
    rintro rfl
    cases hc
  have hbefore : beforeComment (c :: restOfLine rest) = c :: beforeComment (restOfLine rest) := by
    rw [beforeComment]
    rintro tail rfl htail
    cases rest with
    | nil => cases htail
    | cons d rest =>
        rw [restOfLine, List.takeWhile_cons] at htail
        split at htail
        · cases htail
          exact hdash rfl rfl
        · cases htail
  rw [restOfLine_cons hnew, hbefore, allBlank, List.all_cons, hc] at hline
  cases hline

/-- A blank at the beginning of a line changes nothing about its code. -/
theorem beforeComment_blank {c : Char} (hc : isBlank c = true) (line : List Char) :
    allBlank (beforeComment (c :: line)) = allBlank (beforeComment line) := by
  have hcons : beforeComment (c :: line) = c :: beforeComment line := by
    rw [beforeComment]
    rintro _ rfl _
    cases hc
  rw [hcons, allBlank, List.all_cons, hc, Bool.true_and, allBlank]

/-- A blank in front of a line leaves it blank or not. -/
theorem linesFrom_blank {c : Char} (hc : isBlank c = true) (line text : List Char) :
    (linesFrom (line ++ [c]) text).all (fun line => allBlank (beforeComment line))
      = (linesFrom line text).all fun line => allBlank (beforeComment line) := by
  have hline (line : List Char) : allBlank (beforeComment (line ++ [c]).reverse)
      = allBlank (beforeComment line.reverse) := by
    rw [List.reverse_append, List.reverse_singleton, List.singleton_append, beforeComment_blank hc]
  induction text generalizing line with
  | nil =>
      have hblank := hline line
      rw [linesFrom, linesFrom]
      cases line with
      | nil =>
          have hone : allBlank (beforeComment ([] ++ [c]).reverse) = true := hblank
          simpa using hone
      | cons d line => simpa using hblank
  | cons d text ih =>
      rw [linesFrom, linesFrom]
      split
      · rw [List.all_cons, List.all_cons, beforeComment_dropReturn, beforeComment_dropReturn, hline]
      · exact ih (d :: line)

/-- A blank at the beginning of a text makes it neither code nor comment. -/
theorem onlyComments_blank {c : Char} (hc : isBlank c = true) (text : List Char) :
    onlyComments (c :: text) = onlyComments text := by
  by_cases hnew : c = '\n'
  · rw [hnew]
    rfl
  · have hlines : lines (c :: text) = linesFrom ([] ++ [c]) text := by
      rw [lines, linesFrom, if_neg (by simpa using hnew)]
      rfl
    rw [onlyComments, hlines, linesFrom_blank hc]
    rfl

/-- Blanks in front make no difference to a text of comments. -/
theorem onlyComments_blank_append {blank : List Char} (hblank : allBlank blank = true)
    (text : List Char) : onlyComments (blank ++ text) = onlyComments text := by
  induction blank with
  | nil => rfl
  | cons c blank ih =>
      obtain ⟨hc, hrest⟩ := allBlank_cons.mp hblank
      rw [List.cons_append, onlyComments_blank hc, ih hrest]

/-- Blanks at the end make no difference to a text of comments. -/
theorem onlyComments_append_blank {blank : List Char} (hblank : allBlank blank = true)
    (text : List Char) : onlyComments (text ++ blank) = onlyComments text := by
  induction blank generalizing text with
  | nil => rw [List.append_nil]
  | cons c blank ih =>
      obtain ⟨hc, hrest⟩ := allBlank_cons.mp hblank
      rw [← List.singleton_append, ← List.append_assoc, ih hrest, onlyComments_snoc hc]

/-- Trimming makes no difference to a text of comments. -/
theorem onlyComments_trim (text : List Char) : onlyComments (trim text) = onlyComments text := by
  obtain ⟨blank, hblank, htext⟩ := exists_trim text
  have hwhole := congrArg onlyComments htext
  rw [onlyComments_blank_append (allBlank_takeWhile text),
    onlyComments_append_blank hblank] at hwhole
  exact hwhole.symm

/-- The lines before a newline and those after it are told apart. -/
theorem onlyComments_newline (a b : List Char) :
    onlyComments (a ++ '\n' :: b) = (onlyComments a && onlyComments b) := by
  have hfrom (line a : List Char) :
      (linesFrom line (a ++ '\n' :: b)).all (fun line => allBlank (beforeComment line))
        = ((linesFrom line a).all (fun line => allBlank (beforeComment line)) &&
            onlyComments b) := by
    induction a generalizing line with
    | nil =>
        have hnew : linesFrom line ('\n' :: b) = (dropReturn line).reverse :: linesFrom [] b := rfl
        rw [List.nil_append, hnew, List.all_cons, beforeComment_dropReturn]
        cases line with
        | nil => rfl
        | cons d line =>
            have hlast : linesFrom (d :: line) [] = [(d :: line).reverse] := rfl
            rw [hlast, List.all_cons, List.all_nil, Bool.and_true]
            rfl
    | cons d a ih =>
        rw [List.cons_append, linesFrom, linesFrom]
        split
        · rw [List.all_cons, List.all_cons, ih, Bool.and_assoc]
        · exact ih (d :: line)
  exact hfrom [] a

/-- Two dashes take the rest of their line along. -/
theorem onlyComments_dashes (text : List Char) :
    onlyComments ('-' :: '-' :: text) = onlyComments (pastLine text) := by
  have hfrom (line text : List Char) :
      (linesFrom (line ++ ['-', '-']) text).all (fun line => allBlank (beforeComment line))
        = onlyComments (pastLine text) := by
    have hline (line : List Char) : allBlank
        (beforeComment (line ++ ['-', '-']).reverse) = true := by
      rw [List.reverse_append]
      rfl
    induction text generalizing line with
    | nil =>
        rw [linesFrom, if_neg (by simp), List.all_cons, hline]
        rfl
    | cons d text ih =>
        rw [linesFrom]
        split
        · rename_i hnew
          rw [List.all_cons, beforeComment_dropReturn, hline, eq_of_beq hnew]
          rfl
        · rename_i hnew
          rw [pastLine_cons (by simpa using hnew)]
          exact ih (d :: line)
  exact hfrom [] text

/-- What holds of the empty text, and goes on over a blank and over a
comment with the line that it takes, holds of all texts of blanks and
comments. -/
@[elab_as_elim]
theorem comments_induction {P : List Char → Prop} (nil : P [])
    (blank : ∀ c text, isBlank c = true → P text → P (c :: text))
    (comment : ∀ text, P (pastLine text) → P ('-' :: '-' :: text))
    (text : List Char) (h : onlyComments text = true) : P text := by
  -- the induction is on the length, since a comment takes a whole line away
  induction hlength : text.length using Nat.strong_induction_on generalizing text with
  | _ n ih =>
      subst hlength
      cases text with
      | nil => exact nil
      | cons c rest =>
          cases hc : isBlank c with
          | true =>
              rw [onlyComments_blank hc] at h
              exact blank c rest hc (ih _ (Nat.lt_succ_self _) rest h rfl)
          | false =>
              -- what is not blank must begin a comment
              have hdashes : c = '-' ∧ rest.head? = some '-' := by
                by_contra hcode
                rw [not_and] at hcode
                rw [onlyComments_cons hc hcode] at h
                cases h
              obtain ⟨rfl, hhead⟩ := hdashes
              obtain ⟨line, rfl⟩ := List.head?_eq_some_iff.mp hhead
              rw [onlyComments_dashes] at h
              have hshort := length_pastLine_le line
              refine comment line (ih _ ?_ (pastLine line) h rfl)
              rw [List.length_cons, List.length_cons]
              omega

/-- What follows a blank line, or the blank beginning of one, is told
apart from what stands before; the text before is given with its last
character first. -/
theorem onlyComments_reverse_append {taken : List Char} (h : allBlank (restOfLine taken) = true)
    (text : List Char) :
    onlyComments (taken.reverse ++ text) = (onlyComments taken.reverse && onlyComments text) := by
  induction taken generalizing text with
  | nil => rfl
  | cons c taken ih =>
      have hsplit : (c :: taken).reverse ++ text = taken.reverse ++ c :: text := by
        rw [List.reverse_cons, List.append_assoc, List.singleton_append]
      by_cases hnew : c = '\n'
      · rw [hsplit, hnew, onlyComments_newline, List.reverse_cons, onlyComments_snoc (by decide)]
      · rw [restOfLine_cons hnew, allBlank_cons] at h
        rw [hsplit, ih h.2, onlyComments_blank h.1, List.reverse_cons, onlyComments_snoc h.1]

/-- Where a text of blanks and comments ends within a comment, the line
may go on; otherwise its last line is blank. -/
theorem onlyComments_line {text : List Char} (h : onlyComments text = true) :
    allBlank (restOfLine text.reverse) = true ∨
      ∀ line, '\n' ∉ line → onlyComments (text ++ line) = true := by
  -- the text is built up from blanks and comments, and what counts is how it
  -- ends
  refine comments_induction ?nil ?blank ?comment text h
  case nil => exact .inl rfl
  case blank =>
    intro c text hc ih
    rcases ih with hlast | hgoes
    · refine .inl ?_
      rw [List.reverse_cons]
      exact allBlank_restOfLine_append_blank hlast (allBlank_cons.mpr ⟨hc, rfl⟩)
    · exact .inr fun line hline => by rw [List.cons_append, onlyComments_blank hc, hgoes line hline]
  case comment =>
    intro text ih
    -- behind a comment there is more text, or it is the end of the whole
    have hsplit := restOfLine_append_pastLine text
    have hfirst := not_mem_restOfLine text
    have hgoes (line : List Char) : onlyComments ('-' :: '-' :: text ++ line)
        = onlyComments (pastLine (text ++ line)) :=
      onlyComments_dashes (text ++ line)
    rcases endsLine_pastLine text with hpast | ⟨rest, hpast⟩
    · refine .inr fun line hline => ?_
      -- the comment is the end, so the line goes on in it
      rw [hpast, List.append_nil] at hsplit
      rw [hgoes, ← hsplit, pastLine_append hfirst, ← List.append_nil line, pastLine_append hline]
      rfl
    · rw [hpast] at hsplit ih
      -- past the comment the end is that of the rest
      rcases ih with hlast | hlonger
      · refine .inl ?_
        rw [List.reverse_cons] at hlast
        have hreverse : ('-' :: '-' :: text).reverse
            = rest.reverse ++ '\n' :: ('-' :: '-' :: restOfLine text).reverse := by
          calc ('-' :: '-' :: text).reverse
              = ('-' :: '-' :: (restOfLine text ++ '\n' :: rest)).reverse := by rw [hsplit]
            _ = rest.reverse ++ '\n' :: ('-' :: '-' :: restOfLine text).reverse := by simp
        rw [hreverse, restOfLine_append]
        exact allBlank_restOfLine_append hlast
      · refine .inr fun line hline => ?_
        rw [hgoes, ← hsplit, List.append_assoc, pastLine_append hfirst]
        exact hlonger line hline

end Text

end RelQuery
