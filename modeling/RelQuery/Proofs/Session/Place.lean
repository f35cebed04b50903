/-
Where the characters of a text stand: in code, a string or a comment,
and inside how many brackets.

A text is walked once from its front. Two readings differ in one
point, whether a string goes on after the end of its line (`spans`);
they agree on every text whose strings keep to their lines
(`every_linewise`).
-/
import RelQuery.Session.Piece

namespace RelQuery

/-- Where a character of a text stands. -/
structure Place where
  mode : ScanMode := .code
  /-- Brackets open. -/
  depth : Nat := 0
  deriving DecidableEq, Repr

namespace Place

/-- The place after a character; `rest` is what follows it. -/
def after (spans : Bool) (p : Place) (c : Char) (rest : List Char) : Place :=
  match p.mode with
  | .code =>
    if c == '\'' then { p with mode := .string }
    else if c == '-' && rest.head? == some '-' then { p with mode := .comment }
    else if c == '(' || c == '\x7b' || c == '[' then { p with depth := p.depth + 1 }
    else if c == ')' || c == '\x7d' || c == ']' then { p with depth := p.depth - 1 }
    else p
  | .string => if c == '\'' || (c == '\n' && !spans) then { p with mode := .code } else p
  | .comment | .directive => if c == '\n' then { p with mode := .code } else p

/-- Whether every character of a text is where it may be. -/
def every (spans : Bool) (ok : Place → Char → List Char → Bool) (p : Place) : List Char → Bool
  | [] => true
  | c :: rest => ok p c rest && every spans ok (p.after spans c rest) rest

-- ====================================================== what may stand

/-- A newline stands inside brackets. -/
def newlineBracketed (p : Place) (c : Char) (_ : List Char) : Bool :=
  c != '\n' || 0 < p.depth

/-- A newline stands outside strings. -/
def stringInLine (p : Place) (c : Char) (_ : List Char) : Bool :=
  c != '\n' || p.mode != .string

/-- A semicolon stands inside brackets, unless it is part of a string or
a comment. -/
def semicolonBracketed (p : Place) (c : Char) (_ : List Char) : Bool :=
  c != ';' || p.mode != .code || 0 < p.depth

/-- As in the code of a sentence: there is no hash, and a semicolon stands
inside brackets. -/
def inSentence (p : Place) (c : Char) (rest : List Char) : Bool :=
  semicolonBracketed p c rest && (c != '#' || p.mode != .code)

/-- Nothing here ends a statement: no semicolon of code and no newline
outside brackets, unless a line that begins with a dot follows. -/
def goesOn (p : Place) (c : Char) (rest : List Char) : Bool :=
  semicolonBracketed p c rest &&
    (newlineBracketed p c rest || (Text.trimStart rest).head? == some '.')

-- ============================================================== steps

variable {p : Place} {c : Char}

/-- A line feed ends a comment and any open text. -/
theorem after_newline (p : Place) (rest : List Char) :
    p.after false '\n' rest = { p with mode := .code } := by
  obtain ⟨mode, depth⟩ := p
  cases mode with
  | code | string | comment | directive => rfl

/-- Within a comment nothing changes until the line ends. -/
theorem after_comment (hp : p.mode = .comment) (hc : c ≠ '\n') (spans : Bool) (rest : List Char) :
    p.after spans c rest = p := by
  unfold after
  rw [hp]
  exact if_neg (by simpa using hc)

/-- A blank of code changes nothing. -/
theorem after_blank (hp : p.mode = .code) (hc : Text.isBlank c = true) (spans : Bool)
    (rest : List Char) : p.after spans c rest = p := by
  have hne (d : Char) (hd : Text.isBlank d = false) : (c == d) = false := by
    simp only [beq_eq_false_iff_ne]
    rintro rfl
    rw [hc] at hd
    cases hd
  unfold after
  rw [hp]
  simp [hne '\'' rfl, hne '-' rfl, hne '(' rfl, hne '\x7b' rfl, hne '[' rfl, hne ')' rfl,
    hne '\x7d' rfl, hne ']' rfl]

/-- Of what follows only a dash counts. -/
theorem after_congr {rest rest' : List Char}
    (h : rest'.head? = some '-' ↔ rest.head? = some '-') (spans : Bool) :
    p.after spans c rest' = p.after spans c rest := by
  have hdash : (rest'.head? == some '-') = (rest.head? == some '-') := by
    rw [Bool.eq_iff_iff, beq_iff_eq, beq_iff_eq, h]
  unfold after
  rw [hdash]

/-- Two dashes of code begin a comment. -/
theorem after_dashes (hp : p.mode = .code) (spans : Bool) {rest : List Char}
    (hrest : rest.head? = some '-') : p.after spans '-' rest = { p with mode := .comment } := by
  unfold after
  rw [hp, hrest]
  rfl

/-- Nothing in a text leads to a directive. -/
theorem after_mode {p : Place} (hp : p.mode ≠ .directive) (spans : Bool) (c : Char)
    (rest : List Char) : (p.after spans c rest).mode ≠ .directive := by
  obtain ⟨mode, depth⟩ := p
  cases mode with
  | code =>
      unfold after
      dsimp only
      repeat' split
      all_goals simp
  | string =>
      unfold after
      dsimp only
      split <;> simp
  | comment =>
      unfold after
      dsimp only
      split <;> simp
  | directive => exact absurd rfl hp

/-- A text that ends on its line reads the same, whether or not texts may
span lines. -/
theorem after_spans {p : Place} {c : Char} {rest : List Char} (h : stringInLine p c rest = true) :
    p.after true c rest = p.after false c rest := by
  unfold after
  unfold stringInLine at h
  cases hm : p.mode with
  | code => rfl
  | string =>
      rw [hm] at h
      have hc : c ≠ '\n' := by simpa using h
      simp [hc]
  | comment => rfl
  | directive => rfl

/-- Where strings keep to their lines, a text read line by line holds
together as it does when read as a whole. -/
theorem every_linewise {p : Place} {text : List Char}
    (hstring : every true stringInLine p text = true)
    (hnewline : every true newlineBracketed p text = true)
    (hsentence : every true inSentence p text = true) : every false goesOn p text = true := by
  induction text generalizing p with
  | nil => rfl
  | cons c rest ih =>
      rw [every, Bool.and_eq_true] at hstring hnewline hsentence ⊢
      have hafter := after_spans hstring.1
      rw [hafter] at hstring hnewline hsentence
      have hsemicolon := hsentence.1
      rw [inSentence, Bool.and_eq_true] at hsemicolon
      refine ⟨?_, ih hstring.2 hnewline.2 hsentence.2⟩
      simp [goesOn, hnewline.1, hsemicolon.1]

end Place

end RelQuery
