/-
What a scan does with a character.

A character ends the open stretch (`Ends`), begins a directive
(`Directs`), or is taken into the stretch. What a character that is
taken opens or closes depends only on where it stands and on the
character after it (`follow`).
-/
import RelQuery.Proofs.Session.Place
import RelQuery.Proofs.Text.Comment

namespace RelQuery

namespace Scan

variable {s : Scan} {c : Char} {rest : List Char}

/-- The pieces of a text are those of its first character and of the rest. -/
theorem pieces_cons (s : Scan) (c : Char) (rest : List Char) :
    s.pieces (c :: rest) = (s.step c rest).1 ++ (s.step c rest).2.pieces rest := rfl

/-- Where the next character of a scan stands. -/
def place (s : Scan) : Place := ⟨s.mode, s.depth⟩

/-- Takes a character and goes to a place. -/
def goTo (s : Scan) (c : Char) (p : Place) : Scan :=
  { s.take c with depth := p.depth, mode := p.mode }

/-- Takes a character and goes to the place after it; `rest` is what
follows it. -/
def follow (s : Scan) (c : Char) (rest : List Char) : Scan :=
  s.goTo c (s.place.after false c rest)

/-- The character ends the stretch: a newline after which nothing goes
on, or a semicolon of code outside brackets. -/
def Ends (s : Scan) (c : Char) (rest : List Char) : Prop :=
  c = '\n' ∧ s.endsAt rest = true ∨ c = ';' ∧ s.mode = .code ∧ s.depth = 0

/-- The character begins a directive: a hash of code with nothing but
blanks and comments before it. -/
def Directs (s : Scan) (c : Char) : Prop :=
  c = '#' ∧ s.mode = .code ∧ Text.onlyComments s.taken.reverse = true

theorem taken_follow (s : Scan) (c : Char) (rest : List Char) :
    (s.follow c rest).taken = c :: s.taken := rfl

-- =============================================================== ends

/-- A line feed that ends a statement closes it and begins another. -/
theorem step_newline_ends (h : s.endsAt rest = true) :
    s.step '\n' rest = (s.close, { start := s.offset + 1 }) := by
  have hends : ({ s with mode := .code } : Scan).endsAt rest = true := h
  show s.newline rest = _
  unfold newline
  dsimp only
  rw [if_pos hends]
  rfl

/-- A character that ends a statement closes it and begins another. -/
theorem step_ends (h : s.Ends c rest) :
    s.step c rest = (s.close, { start := s.offset + c.utf8Size }) := by
  rcases h with ⟨rfl, hends⟩ | ⟨rfl, hmode, hdepth⟩
  · exact step_newline_ends hends
  · obtain ⟨start, taken, depth, mode⟩ := s
    cases hmode
    cases hdepth
    rfl

/-- A colon at the beginning makes the rest of its line a directive. -/
theorem step_directs (h : s.Directs c) :
    s.step c rest = ([⟨.directive (Text.trim (Text.restOfLine rest)), s.offset⟩],
      { s.next c with mode := .directive }) := by
  obtain ⟨start, taken, depth, mode⟩ := s
  obtain ⟨rfl, rfl, honly⟩ := h
  show code _ '#' rest = _
  unfold code
  dsimp only
  rw [honly]
  rfl

-- ============================================================== taken

/-- A line feed that ends nothing is taken. -/
theorem newline_takes (h : s.endsAt rest = false) : s.newline rest = ([], s.follow '\n' rest) := by
  have hends : ({ s with mode := .code } : Scan).endsAt rest = false := h
  unfold newline follow
  dsimp only
  rw [hends, Place.after_newline]
  rfl

/-- A character of code that ends nothing is taken. -/
theorem code_takes (hmode : s.mode = .code) (hends : ¬s.Ends c rest) (hdirects : ¬s.Directs c) :
    s.code c rest = ([], s.follow c rest) := by
  obtain ⟨start, taken, depth, mode⟩ := s
  cases hmode
  have hcut : ¬(c == ';' && depth = 0) = true := by
    simp only [Bool.and_eq_true, beq_iff_eq, decide_eq_true_eq]
    rintro ⟨rfl, rfl⟩
    exact hends (.inr ⟨rfl, rfl, rfl⟩)
  have hhash : ¬(c == '#' && Text.onlyComments taken.reverse) = true := by
    rw [Bool.and_eq_true, beq_iff_eq]
    rintro ⟨rfl, honly⟩
    exact hdirects ⟨rfl, rfl, honly⟩
  unfold code follow Place.after
  dsimp only [place]
  rw [if_neg hcut, if_neg hhash]
  repeat' split
  · rfl
  · rfl
  · rfl
  · rfl
  · rfl

/-- Any other character is taken, and the scan knows where it stands. -/
theorem step_takes (hmode : s.mode ≠ .directive) (hends : ¬s.Ends c rest)
    (hdirects : ¬s.Directs c) : s.step c rest = ([], s.follow c rest) := by
  by_cases hnew : c = '\n'
  · subst hnew
    exact newline_takes (Bool.eq_false_iff.mpr fun hline => hends (.inl ⟨rfl, hline⟩))
  · unfold step
    rw [if_neg (by simpa using hnew)]
    cases hm : s.mode with
    -- in each mode the step of the scan is the one that `follow` describes
    | code => exact code_takes hm hends hdirects
    | string =>
        have hc : (c == '\n') = false := beq_eq_false_iff_ne.mpr hnew
        unfold follow Place.after place
        dsimp only
        rw [hm, hc]
        dsimp only
        rw [Bool.false_and, Bool.or_false]
        split
        · rfl
        · rfl
    | comment =>
        unfold follow
        rw [Place.after_comment hm hnew]
        rfl
    | directive => exact absurd hm hmode

/-- Outside strings, comments and directives a blank is only taken. -/
theorem step_blank (hs : s.mode = .code) (hc : Text.isBlank c = true) (hnew : c ≠ '\n')
    (rest : List Char) : s.step c rest = ([], s.take c) := by
  have hends : ¬s.Ends c rest := by
    rintro (⟨rfl, -⟩ | ⟨rfl, -⟩)
    · exact hnew rfl
    · cases hc
  have hdirects : ¬s.Directs c := by
    rintro ⟨rfl, -⟩
    cases hc
  rw [step_takes (by rw [hs]; nofun) hends hdirects, follow, Place.after_blank hs hc]
  rfl

end Scan

end RelQuery
