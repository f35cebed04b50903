/-
The caret of a diagnostic stands under the character it reports.

Three views of a text meet here. The line number counts the newlines
before an offset; the column counts the characters since the last of
them; the text of a line comes from a cut of the whole text, which
drops a carriage return at the end of a line. The cut is followed up to
the offset: as many lines are over as there were newlines, and the line
being read is what stands before the offset since the last of them
(`drop_linesFrom`). What comes after the offset can then only add to
that line (`linesFrom_cons`), unless the character at the offset is
itself part of the end of the line.
-/
import Mathlib.Data.List.Induction
import RelQuery.Diagnostic.Basic
import RelQuery.Proofs.Text.Boundary

namespace RelQuery

namespace Text

-- ===================================================== lines of a text

/-- What stands after the last newline of a text, last character
first. -/
def openLine (text : List Char) : List Char :=
  text.reverse.takeWhile (· != '\n')

/-- A character adds to the open line, and a line feed begins a new one. -/
theorem openLine_snoc (text : List Char) (c : Char) :
    openLine (text ++ [c]) = if c = '\n' then [] else c :: openLine text := by
  rw [openLine, List.reverse_append, List.reverse_singleton, List.singleton_append,
    List.takeWhile_cons]
  by_cases hc : c = '\n'
  · simp [hc]
  · simp [hc, openLine]

/-- Cutting a text into lines has, at any point, found as many lines as
there were newlines, and is reading the last one. -/
theorem drop_linesFrom (before rest : List Char) :
    (linesFrom [] (before ++ rest)).drop (before.count '\n') =
        linesFrom (openLine before) rest := by
  induction before using List.reverseRecOn generalizing rest with
  | nil => rfl
  | append_singleton before c ih =>
      rw [List.append_assoc, List.singleton_append, List.count_append, openLine_snoc,
        ← List.drop_drop, ih (c :: rest), linesFrom]
      by_cases hc : c = '\n'
      · simp [hc]
      · simp [hc]

/-- The line being read goes on with a character that is no part of its
end. -/
theorem linesFrom_cons {c : Char} {rest : List Char} (hc : c ≠ '\n')
    (hreturn : c = '\r' → rest.head? ≠ some '\n') (line : List Char) :
    ∃ more others, linesFrom line (c :: rest) = (line.reverse ++ c :: more) :: others := by
  -- the induction is on what follows; the character before is kept for a
  -- carriage return
  induction rest generalizing line c with
  | nil =>
      refine ⟨[], [], ?_⟩
      rw [linesFrom, if_neg (by simpa using hc), linesFrom]
      simp
  | cons d rest ih =>
      rw [linesFrom, if_neg (by simpa using hc)]
      by_cases hd : d = '\n'
      · -- the line ends here, and its last character stays
        subst hd
        have hdrop : dropReturn (c :: line) = c :: line := by
          unfold dropReturn
          split
          · rename_i heq
            cases heq
            exact absurd rfl (hreturn rfl)
          · rfl
        refine ⟨[], linesFrom [] rest, ?_⟩
        rw [linesFrom, if_pos (beq_self_eq_true _), hdrop, List.reverse_cons]
      by_cases hend : d = '\r' ∧ rest.head? = some '\n'
      · -- the carriage return goes with the newline after it
        obtain ⟨rfl, hnewline⟩ := hend
        obtain ⟨rest, rfl⟩ := List.head?_eq_some_iff.mp hnewline
        refine ⟨[], linesFrom [] rest, ?_⟩
        rw [linesFrom, if_neg (by decide), linesFrom, if_pos (beq_self_eq_true _), dropReturn,
          List.reverse_cons]
      -- otherwise the next character is on the same line
      · obtain ⟨more, others, hlines⟩ := ih hd (fun h hnewline => hend ⟨h, hnewline⟩) (c :: line)
        refine ⟨d :: more, others, ?_⟩
        rw [hlines, List.reverse_cons, List.append_assoc, List.singleton_append]

/-- Dropping a carriage return leaves the line in order. -/
theorem dropReturn_sublist (line : List Char) : (dropReturn line).Sublist line := by
  unfold dropReturn
  split
  · exact List.sublist_cons_self _ _
  · exact List.Sublist.refl _

/-- No line holds a line feed. -/
theorem newline_not_mem_linesFrom {line text : List Char} (hline : '\n' ∉ line) :
    ∀ l ∈ linesFrom line text, '\n' ∉ l := by
  induction text generalizing line with
  | nil =>
      intro l hl
      rw [linesFrom] at hl
      split at hl
      · exact absurd hl List.not_mem_nil
      · rw [List.mem_singleton.mp hl, List.mem_reverse]
        exact hline
  | cons c rest ih =>
      rw [linesFrom]
      by_cases hc : c = '\n'
      · subst hc
        rw [if_pos (beq_self_eq_true _)]
        refine List.forall_mem_cons.mpr ⟨?_, ih List.not_mem_nil⟩
        rw [List.mem_reverse]
        exact fun hmem => hline ((dropReturn_sublist line).subset hmem)
      · rw [if_neg (by simpa using hc)]
        refine ih ?_
        rw [List.mem_cons, not_or]
        exact ⟨Ne.symm hc, hline⟩

end Text

-- ===================================================== lines by number

/-- The text of a line holds no line feed. -/
theorem newline_not_mem_lineText (source : List Char) (line : Nat) :
    '\n' ∉ lineText source line := by
  rw [lineText, List.getD_eq_getElem?_getD]
  cases hline : (Text.lines source)[line - 1]? with
  | none => exact List.not_mem_nil
  | some l => exact Text.newline_not_mem_linesFrom List.not_mem_nil l (List.mem_of_getElem? hline)

namespace Location

open Text

theorem columnAfter_eq (before : List Char) :
    columnAfter before = (openLine before).length + 1 := rfl

theorem ofOffset_eq (before rest : List Char) :
    ofOffset (before ++ rest) (byteLength before)
      = ⟨lineAfter before, columnAfter before, byteLength before⟩ := by
  rw [ofOffset, takeBytes_append]

/-- The line of an offset holds what stands before the offset since the
last newline, and then the character there. -/
theorem lineText_lineAfter (before : List Char) {rest : List Char} {c : Char} (hc : c ≠ '\n')
    (hreturn : c = '\r' → rest.head? ≠ some '\n') :
    ∃ more, lineText (before ++ c :: rest) (lineAfter before)
      = (openLine before).reverse ++ c :: more := by
  obtain ⟨more, others, hlines⟩ := linesFrom_cons hc hreturn (openLine before)
  refine ⟨more, ?_⟩
  rw [lineText, lineAfter, Nat.add_sub_cancel, lines, List.getD_eq_getElem?_getD,
    ← List.head?_drop, drop_linesFrom, hlines]
  rfl

/-- Further on, the line number is higher, or it is the same and the
column is. -/
theorem lineAfter_lt_or_columnAfter_lt (before : List Char) {middle : List Char}
    (hmiddle : middle ≠ []) :
    lineAfter before < lineAfter (before ++ middle) ∨
      lineAfter before = lineAfter (before ++ middle) ∧
        columnAfter before < columnAfter (before ++ middle) := by
  unfold lineAfter
  rw [List.count_append]
  by_cases hline : '\n' ∈ middle
  · have hcount := List.count_pos_iff.mpr hline
    exact .inl (by omega)
  · refine .inr ⟨by rw [List.count_eq_zero.mpr hline, Nat.add_zero], ?_⟩
    have hall : ∀ c ∈ middle.reverse, (c != '\n') = true := by
      intro c hc
      rw [bne_iff_ne]
      rintro rfl
      exact hline (List.mem_reverse.mp hc)
    have hlength := List.length_pos_iff.mpr hmiddle
    rw [columnAfter_eq, columnAfter_eq, openLine, openLine, List.reverse_append,
      List.takeWhile_append_of_pos hall, List.length_append, List.length_reverse]
    omega

end Location

-- ============================================================ carets

namespace Diagnostic

open Text Location

/-- A diagnostic with a location is shown under the line it speaks of,
and the second line is the padding with the caret. -/
theorem splitOn_render (d : Diagnostic) (source : List Char) {place : Location}
    (hplace : d.location = some place) :
    (List.splitOn '\n' (d.render source false).toList).take 2
      = [lineText source place.line,
          padding (lineText source place.line) place.column ++ ['^']] := by
  have hline := newline_not_mem_lineText source place.line
  have hpadding : '\n' ∉ padding (lineText source place.line) place.column ++ ['^'] := by
    rw [List.mem_append, not_or, padding]
    refine ⟨fun hmem => ?_, by decide⟩
    obtain ⟨c, -, hc⟩ := List.mem_map.mp hmem
    split at hc
    · cases hc
    · cases hc
  have hsplit {front : List Char} (hfront : '\n' ∉ front) (rest : List Char) :
      List.splitOn '\n' (front ++ '\n' :: rest) = front :: List.splitOn '\n' rest := by
    refine List.splitOnP_append_cons_of_forall_mem (fun c hc => ?_) '\n' (by decide) rest
    rw [beq_eq_false_iff_ne]
    rintro rfl
    exact hfront hc
  obtain ⟨rest, hrest⟩ : ∃ rest, (d.render source false).toList
      = lineText source place.line ++ '\n' ::
          ((padding (lineText source place.line) place.column ++ ['^']) ++ '\n' :: rest) := by
    unfold render excerpt
    rw [hplace]
    simp only [paint, Bool.false_eq_true, if_false, String.toList_append, String.toList_ofList,
      List.append_assoc]
    exact ⟨_, rfl⟩
  rw [hrest, hsplit hline, hsplit hpadding]
  rfl

/-- The padding before a caret is as long as what stands before the
character on its line, and keeps the tabs. -/
theorem getElem?_padding {cs : List Char} {column : Nat} (hcolumn : column - 1 ≤ cs.length) :
    (padding cs column).length = column - 1 ∧ ∀ i < column - 1,
      (padding cs column)[i]? = some (if cs[i]? = some '\t' then '\t' else ' ') := by
  unfold padding
  refine ⟨by rw [List.length_map, List.length_take, Nat.min_eq_left hcolumn], fun i hi => ?_⟩
  rw [List.getElem?_map, List.getElem?_take_of_lt hi,
    List.getElem?_eq_getElem (Nat.lt_of_lt_of_le hi hcolumn)]
  simp

/-- At every character of a text but those that end a line, the column
is the number of the character on its line, and the caret of an
uncoloured diagnostic stands under it: the second line shown is a tab
under each tab before the character, a space under each other character,
and the caret. Further on in the text the line and column only grow. -/
theorem caret_stands_under_character (d : Diagnostic) (source : List Char) :
    (∀ offset c, StandsAt source offset [c] → c ≠ '\n' → ¬StandsAt source offset ['\r', '\n'] →
      let place := Location.ofOffset source offset
      let cs := lineText source place.line
      1 ≤ place.column ∧ cs[place.column - 1]? = some c ∧
        ∃ pad : List Char, pad.length = place.column - 1 ∧
          (∀ i < place.column - 1, pad[i]? = some (if cs[i]? = some '\t' then '\t' else ' ')) ∧
          (List.splitOn '\n'
              (({ d with location := some place }).render source false).toList).take 2
            = [cs, pad ++ ['^']]) ∧
      ∀ a b, IsBoundary source a → IsBoundary source b → a < b →
        (Location.ofOffset source a).line < (Location.ofOffset source b).line ∨
          (Location.ofOffset source a).line = (Location.ofOffset source b).line ∧
            (Location.ofOffset source a).column < (Location.ofOffset source b).column := by
  constructor
  · rintro offset c ⟨before, rest, hsource, rfl⟩ hc hend place cs
    rw [List.append_assoc, List.singleton_append] at hsource
    subst hsource
    -- the carriage return of a line end is excluded as well
    have hreturn : c = '\r' → rest.head? ≠ some '\n' := by
      rintro rfl hnewline
      obtain ⟨rest, rfl⟩ := List.head?_eq_some_iff.mp hnewline
      exact hend ⟨before, rest, by simp, rfl⟩
    have hplace : place = ⟨lineAfter before, columnAfter before, byteLength before⟩ :=
      Location.ofOffset_eq before (c :: rest)
    -- the column counts the characters that the open line has so far
    have hcolumn : place.column = (openLine before).length + 1 := by rw [hplace]; rfl
    -- the line that is shown goes on with the character itself
    obtain ⟨more, hline⟩ := Location.lineText_lineAfter before hc hreturn
    have hline : cs = (openLine before).reverse ++ c :: more := by
      show lineText _ place.line = _
      rw [hplace]
      exact hline
    have hreach : place.column - 1 ≤ cs.length := by
      rw [hline, hcolumn, List.length_append, List.length_reverse]
      omega
    have hpadding := getElem?_padding hreach
    refine ⟨by omega, ?_, padding cs place.column, hpadding.1, hpadding.2,
      splitOn_render { d with location := some place } _ rfl⟩
    rw [hline, hcolumn, Nat.add_sub_cancel, ← List.length_reverse, List.getElem?_append_right
      (Nat.le_refl _), Nat.sub_self]
    rfl
  -- further on, either a line has ended in between or the column has grown
  · intro a b ha hb hlt
    obtain ⟨before, middle, rest, rfl, hmiddle, rfl, rfl⟩ := exists_between ha hb hlt
    rw [Location.ofOffset_eq, List.append_assoc, Location.ofOffset_eq]
    exact Location.lineAfter_lt_or_columnAfter_lt before hmiddle

/-- A character of two bytes, a line that ends in a carriage return and
a newline, a tab, and a carriage return of its own before the character
that is reported, on a last line without a newline. -/
theorem caret_stands_under_character_bare_return :
    let source := ['é', '\r', '\n', '\t', 'x', '\r', 'y']
    let shown := { Diagnostic.error Code.typeMismatch "wrong" with
      location := some (.ofOffset source 7) }
    StandsAt source 7 ['y'] ∧ ¬StandsAt source 7 ['\r', '\n'] ∧
      Location.ofOffset source 7 = ⟨2, 4, 7⟩ ∧ (lineText source 2)[3]? = some 'y' ∧
      (List.splitOn '\n' (shown.render source false).toList).take 2
        = [['\t', 'x', '\r', 'y'], ['\t', ' ', ' ', '^']] ∧
      IsBoundary source 2 ∧
          (Location.ofOffset source 2).line < (Location.ofOffset source 7).line := by
  intro source shown
  have hstands : StandsAt source 7 ['y'] := ⟨['é', '\r', '\n', '\t', 'x', '\r'], [], rfl, rfl⟩
  have hend : ¬StandsAt source 7 ['\r', '\n'] := fun h => absurd h.le_byteLength (by decide)
  have hboundary : IsBoundary source 2 := ⟨['é'], source.tail, rfl, rfl⟩
  obtain ⟨hcaret, horder⟩ :=
    caret_stands_under_character (.error Code.typeMismatch "wrong") source
  obtain ⟨-, hcharacter, pad, hlength, hpad, hshown⟩ := hcaret 7 'y' hstands (by decide) hend
  have hpad : pad = ['\t', ' ', ' '] := by
    refine List.ext_getElem hlength fun i hi _ => Option.some.inj ?_
    rw [hlength] at hi
    rw [← List.getElem?_eq_getElem, ← List.getElem?_eq_getElem, hpad i hi]
    match i, hi with
    | 0, _ | 1, _ | 2, _ => rfl
  refine ⟨hstands, hend, rfl, hcharacter, ?_, hboundary, ?_⟩
  · rw [hpad] at hshown
    exact hshown
  · exact (horder 2 7 hboundary hstands.isBoundary (by decide)).resolve_right fun h =>
      absurd h.1 (by decide)

end Diagnostic

end RelQuery
