/-
A blank line keeps the texts before and after it apart.

The scanner carries brackets, a string and an open stretch along, and
at a newline it looks ahead into what follows. Appending a text can
therefore change what happened before. After a blank line it does not:
whatever state the first text ends in, the two newlines close it. Only
one decision differs on the way. A last newline inside brackets, with
nothing but blanks after it, does not begin a blank line as long as
the text ends there, and does as soon as more follows. It ends the
statement early then, but the rest of the stretch is blank, and blanks
at its end are no part of a statement (`close_take`).

Positions only enter as offsets: a scan that begins further on finds
the same pieces further on (`pieces_moved`).
-/
import RelQuery.Proofs.Session.Scanning

namespace RelQuery

-- ============================================================ places

/-- A piece `k` bytes further on. -/
def Piece.moved (k : Nat) (p : Piece) : Piece :=
  { p with offset := p.offset + k }

namespace Scan

/-- A scan that began `k` bytes further on. -/
def moved (k : Nat) (s : Scan) : Scan :=
  { s with start := s.start + k }

theorem offset_moved (k : Nat) (s : Scan) : (s.moved k).offset = s.offset + k :=
  Nat.add_right_comm _ _ _

/-- A scan closes with the same piece, moved. -/
theorem close_moved (k : Nat) (s : Scan) : (s.moved k).close = s.close.map (Piece.moved k) := by
  unfold close
  dsimp only [moved]
  split
  · rfl
  · simp only [Piece.moved, List.map_cons, List.map_nil, Nat.add_right_comm]

theorem next_moved (k : Nat) (s : Scan) (c : Char) : (s.moved k).next c = (s.next c).moved k := by
  unfold next
  rw [offset_moved]
  simp only [moved, Nat.add_right_comm]

/-- A line feed does the same, moved. -/
theorem newline_moved (k : Nat) (s : Scan) (rest : List Char) :
    (s.moved k).newline rest
      = ((s.newline rest).1.map (Piece.moved k), (s.newline rest).2.moved k) := by
  unfold newline
  dsimp only
  have hmode : ({ s.moved k with mode := .code } : Scan) =
      ({ s with mode := .code } : Scan).moved k :=
    rfl
  rw [hmode, next_moved, close_moved]
  split
  · rename_i hends
    rw [if_pos (show ({ s with mode := .code } : Scan).endsAt rest = true from hends)]
    rfl
  · rename_i hends
    rw [if_neg (show ¬({ s with mode := .code } : Scan).endsAt rest = true from hends)]
    rfl

/-- A character of code does the same, moved. -/
theorem code_moved (k : Nat) (s : Scan) (c : Char) (rest : List Char) :
    (s.moved k).code c rest
      = ((s.code c rest).1.map (Piece.moved k), (s.code c rest).2.moved k) := by
  have htaken : (s.moved k).taken = s.taken := rfl
  have hdepth : (s.moved k).depth = s.depth := rfl
  unfold code
  rw [htaken, hdepth, next_moved, close_moved, offset_moved]
  split
  · rfl
  split
  · rfl
  split
  · rfl
  split
  · rfl
  split
  · rfl
  split
  · rfl
  · rfl

/-- A character does the same in any mode, moved. -/
theorem step_moved (k : Nat) (s : Scan) (c : Char) (rest : List Char) :
    (s.moved k).step c rest
      = ((s.step c rest).1.map (Piece.moved k), (s.step c rest).2.moved k) := by
  have hmode : (s.moved k).mode = s.mode := rfl
  unfold step
  rw [hmode, newline_moved, code_moved, next_moved]
  split
  · rfl
  · cases s.mode with
    | code => rfl
    | string => rfl
    | comment => rfl
    | directive => rfl

/-- A scan that begins further on finds the same pieces further on. -/
theorem pieces_moved (k : Nat) (s : Scan) (text : List Char) :
    (s.moved k).pieces text = (s.pieces text).map (Piece.moved k) := by
  induction text generalizing s with
  | nil => exact close_moved k s
  | cons c rest ih =>
      rw [pieces, pieces, step_moved]
      dsimp only
      rw [ih, List.map_append]

-- ============================================================ blanks

/-- Blanks at the end of a stretch are no part of its statement. -/
theorem close_take {c : Char} (hc : Text.isBlank c = true) (s : Scan) :
    (s.take c).close = s.close := by
  unfold close take
  dsimp only
  rw [List.reverse_cons, Text.onlyComments_snoc hc, Text.trim_snoc hc]
  split
  · rfl
  · rename_i hcode
    have hblank : Text.allBlank s.taken.reverse = false := by
      rw [← Bool.not_eq_true]
      intro hblank
      have htaken : Text.allBlank s.taken = true := by simpa [Text.allBlank] using hblank
      exact hcode (Text.onlyComments_reverse_of_allBlank htaken)
    rw [Text.takeWhile_isBlank_snoc hblank]

/-- The blanks at the end of a text change nothing about its last
statement. -/
theorem pieces_blank {s : Scan} (hs : s.mode = .code) {text : List Char}
    (hblank : Text.allBlank text = true) (hline : '\n' ∉ text) : s.pieces text = s.close := by
  induction text generalizing s with
  | nil => rfl
  | cons c rest ih =>
      unfold Text.allBlank at hblank ih
      rw [List.all_cons, Bool.and_eq_true] at hblank
      rw [List.mem_cons, not_or] at hline
      rw [pieces, step_blank hs hblank.1 (Ne.symm hline.1)]
      dsimp only
      rw [ih (s := s.take c) hs hblank.2 hline.2, close_take hblank.1, List.nil_append]

-- ======================================================== blank lines

/-- Taking a character moves on by its bytes. -/
theorem offset_take (s : Scan) (c : Char) : (s.take c).offset = s.offset + c.utf8Size := by
  show s.start + Text.byteLength (c :: s.taken) = s.start + Text.byteLength s.taken + c.utf8Size
  rw [Text.byteLength_cons]
  omega

/-- Every character moves the scan on by its length. -/
theorem offset_step (s : Scan) (c : Char) (rest : List Char) :
    (s.step c rest).2.offset = s.offset + c.utf8Size := by
  -- all arms of the step take the character, or drop it and move past it
  have htake (d : Nat) (m : ScanMode) :
      ({ s.take c with depth := d, mode := m } : Scan).offset = s.offset + c.utf8Size :=
    offset_take s c
  have hnext (d : Nat) (m : ScanMode) :
      ({ s.next c with depth := d, mode := m } : Scan).offset = s.offset + c.utf8Size := rfl
  unfold step
  split
  · rename_i hnew
    cases eq_of_beq hnew
    unfold newline
    dsimp only
    split
    · rfl
    · exact htake _ _
  · cases s.mode with
    | code =>
        unfold code
        dsimp only
        repeat' split
        · exact htake _ _
        · exact htake _ _
        · exact hnext _ _
        · exact htake _ _
        · exact htake _ _
        · exact hnext _ _
        · exact htake _ _
    | string => exact htake _ _
    | comment => exact htake _ _
    | directive => exact hnext _ _

/-- What stands before a blank line decides about a newline as if the
text ended there, except where brackets are open and only blanks
follow. -/
theorem endsAt_append {s : Scan} {a b : List Char} (hb : (Text.trimStart b).head? ≠ some '.')
    (hline : s.depth ≠ 0 → Text.allBlank a = true → '\n' ∈ a) :
    s.endsAt (a ++ '\n' :: '\n' :: b) = s.endsAt a := by
  unfold endsAt
  -- outside of brackets a line feed ends a statement unless a point goes on with
  -- it
  split
  · rw [Text.trimStart_append]
    split
    · rename_i hblank
      have hskip : Text.trimStart ('\n' :: '\n' :: b) = Text.trimStart b := rfl
      rw [hskip, Text.trimStart_eq_nil.mpr hblank, bne_iff_ne.mpr hb]
      rfl
    · rename_i hblank
      obtain ⟨d, rest, hcons⟩ := List.exists_cons_of_ne_nil (mt Text.trimStart_eq_nil.mp hblank)
      rw [hcons]
      rfl
  -- inside them it takes a blank line
  · rename_i hdepth
    unfold Text.startsWithBlankLine
    rw [Text.restOfLine_append]
    by_cases hmem : '\n' ∈ a
    · simp [hmem]
    · have hblank : Text.allBlank a = false := by
        rw [← Bool.not_eq_true]
        exact fun hblank => hmem (hline hdepth hblank)
      rw [Text.restOfLine_eq_self hmem, hblank]
      rfl

/-- A character before a blank line does what it would at the end of its
text. -/
theorem step_append {s : Scan} {c : Char} {a b : List Char}
    (hb : (Text.trimStart b).head? ≠ some '.')
    (hline : c = '\n' → s.depth ≠ 0 → Text.allBlank a = true → '\n' ∈ a) :
    s.step c (a ++ '\n' :: '\n' :: b) = s.step c a := by
  unfold step
  split
  · rename_i hnew
    have hends : ({ s with mode := .code } : Scan).endsAt (a ++ '\n' :: '\n' :: b)
        = ({ s with mode := .code } : Scan).endsAt a :=
      endsAt_append hb (hline (eq_of_beq hnew))
    unfold newline
    dsimp only
    rw [hends]
  · cases s.mode with
    | code =>
        have hdash : ((a ++ '\n' :: '\n' :: b).head? == some '-') = (a.head? == some '-') := by
          cases a with
          | nil => rfl
          | cons d a => rfl
        show s.code c _ = s.code c a
        unfold code
        rw [hdash, Text.restOfLine_append]
    | string => rfl
    | comment => rfl
    | directive => rfl

/-- Whatever is open, a blank line closes it. -/
theorem pieces_blankLine {b : List Char} (hb : (Text.trimStart b).head? ≠ some '.') (s : Scan) :
    s.pieces ('\n' :: '\n' :: b) = s.close ++ ({ start := s.offset + 2 } : Scan).pieces b := by
  have hfirst : s.endsAt ('\n' :: b) = true := by
    unfold endsAt
    split
    · exact bne_iff_ne.mpr hb
    · simp [Text.startsWithBlankLine, Text.restOfLine, Text.allBlank]
  have hsecond : ({ start := s.offset + 1 } : Scan).endsAt b = true := bne_iff_ne.mpr hb
  rw [pieces, step_newline_ends hfirst]
  dsimp only
  rw [pieces, step_newline_ends hsecond]
  rfl

/-- A newline in brackets with only blanks after it ends the statement
as soon as a blank line follows, and the end of the text does it
otherwise: with the same statement. -/
theorem pieces_lastLine {s : Scan} (hdepth : s.depth ≠ 0) {a : List Char}
    (hblank : Text.allBlank a = true) (hline : '\n' ∉ a) (b : List Char) :
    s.pieces ('\n' :: a) = s.close ∧
      s.pieces ('\n' :: (a ++ '\n' :: b))
        = s.close ++ ({ start := s.offset + 1 } : Scan).pieces (a ++ '\n' :: b) := by
  constructor
  · have hends : s.endsAt a = false := by
      simp [endsAt, hdepth, Text.startsWithBlankLine, hline]
    have hstep : s.step '\n' a = ([], s.follow '\n' a) := newline_takes hends
    have hmode : (s.follow '\n' a).mode = .code :=
      congrArg Place.mode (Place.after_newline s.place a)
    rw [pieces, hstep]
    dsimp only
    rw [pieces_blank hmode hblank hline]
    exact close_take (by decide) s
  · have hends : s.endsAt (a ++ '\n' :: b) = true := by
      unfold endsAt Text.startsWithBlankLine
      rw [if_neg hdepth, Text.restOfLine_append, Text.restOfLine_eq_self hline, hblank]
      simp
    rw [pieces, step_newline_ends hends]

/-- Whatever a text leaves open, the blank line after it closes. -/
theorem pieces_append {a b : List Char} (hb : (Text.trimStart b).head? ≠ some '.') (s : Scan) :
    s.pieces (a ++ '\n' :: '\n' :: b)
      = s.pieces a ++ ({ start := s.offset + Text.byteLength a + 2 } : Scan).pieces b := by
  induction a generalizing s with
  | nil => exact pieces_blankLine hb s
  | cons c a ih =>
      rw [List.cons_append, Text.byteLength_cons, ← Nat.add_assoc s.offset]
      by_cases hlast : c = '\n' ∧ s.depth ≠ 0 ∧ Text.allBlank a = true ∧ '\n' ∉ a
      · obtain ⟨rfl, hdepth, hblank, hline⟩ := hlast
        obtain ⟨hpieces, hclosed⟩ := pieces_lastLine hdepth hblank hline ('\n' :: b)
        rw [hpieces, hclosed, ih, pieces_blank rfl hblank hline]
        rfl
      · have hstep : s.step c (a ++ '\n' :: '\n' :: b) = s.step c a := by
          refine step_append hb fun hnew hdepth hblank => ?_
          by_contra hline
          exact hlast ⟨hnew, hdepth, hblank, hline⟩
        rw [pieces, pieces, hstep]
        dsimp only
        rw [ih, offset_step, List.append_assoc]

end Scan

/-- Nothing before a blank line, not even an open bracket, quote or
comment, changes how the text after it is cut: the pieces are those of
the two texts, each cut on its own, the second ones moved by what
stands before them. The text after the line must not go on with a dot. -/
theorem Piece.split_append_blankLine (a b : List Char) (hb : (Text.trimStart b).head? ≠ some '.') :
    Piece.split (a ++ '\n' :: '\n' :: b)
      = Piece.split a ++ (Piece.split b).map (Piece.moved (Text.byteLength a + 2)) := by
  have hmoved : ({ start := 0 + Text.byteLength a + 2 } : Scan)
      = ({} : Scan).moved (Text.byteLength a + 2) := by
    simp only [Scan.moved, Nat.zero_add]
  rw [split, Scan.pieces_append hb]
  show _ ++ ({ start := 0 + Text.byteLength a + 2 } : Scan).pieces b = _
  rw [hmoved, Scan.pieces_moved]
  rfl

/-- A bracket and a quote left open before a last line of blanks. -/
theorem Piece.split_append_blankLine_open_bracket :
    let a := ['f', '(', '\'', '(', '\n', ' ', ' ']
    let b := [' ', '2', ';', '3']
    (Text.trimStart b).head? ≠ some '.' ∧
      Piece.split (a ++ '\n' :: '\n' :: b)
        = [⟨.statement ['f', '(', '\'', '('], 0⟩, ⟨.statement ['2'], 10⟩,
            ⟨.statement ['3'], 12⟩] := by
  intro a b
  have hb : (Text.trimStart b).head? ≠ some '.' := by decide
  refine ⟨hb, ?_⟩
  rw [Piece.split_append_blankLine a b hb]
  decide

end RelQuery
