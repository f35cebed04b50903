/-
The scanner and the grammar on where a sentence ends.

Both know strings, comments and brackets, each in its own way: the
scanner walks over characters, the grammar reads tokens. For a text
that is one sentence, with its newlines inside brackets and no blank
line, the scanner cuts nothing as long as the two see the same strings.
They differ in one point. The grammar reads a string to its closing
quote; the scanner gives it up at the end of its line, and takes what
stands on the next line for code. The condition under which it still
cuts nothing is that of a walk that reads strings line by line
(`Place.goesOn`).

The scanner follows such a walk as long as nothing ends the statement
(`step_goesOn`), and once something does, the piece it has found is
shorter than the text (`ends_of_goesOn`).
-/
import RelQuery.Proofs.Grammar.Brackets
import RelQuery.Proofs.Session.Scanning

namespace RelQuery

open Place

namespace Text

-- ========================================================== blank lines

/-- No line of the text is blank. -/
def noBlankLine (text : List Char) : Bool :=
  (lines text).all (!allBlank ·)

/-- A blank line stays blank without its carriage return. -/
theorem allBlank_dropReturn {line : List Char} (h : allBlank line = true) :
    allBlank (dropReturn line).reverse = true := by
  unfold allBlank at h ⊢
  rw [List.all_reverse]
  unfold dropReturn
  split
  · rw [List.all_cons, Bool.and_eq_true] at h
    exact h.2
  · exact h

/-- Of a text that begins with a blank line not all lines have something on
them. -/
theorem linesFrom_of_startsWithBlankLine {line text : List Char} (hline : allBlank line = true)
    (h : startsWithBlankLine text = true) : (linesFrom line text).all (!allBlank ·) = false := by
  induction text generalizing line with
  | nil => cases h
  | cons c text ih =>
      by_cases hc : c = '\n'
      · rw [hc, linesFrom, if_pos (by rfl), List.all_cons, allBlank_dropReturn hline]
        rfl
      · rw [startsWithBlankLine, restOfLine_cons hc, allBlank, List.all_cons] at h
        simp only [Bool.and_eq_true, List.contains_cons] at h
        have hblank : startsWithBlankLine text = true := by
          simpa [startsWithBlankLine, allBlank, Ne.symm hc] using And.intro h.1.2 h.2
        rw [linesFrom, if_neg (by simpa using hc)]
        refine ih ?_ hblank
        rw [allBlank, List.all_cons, h.1.1]
        exact hline

/-- What follows a newline begins with a line of the text. -/
theorem startsWithBlankLine_of_linesFrom {line text rest : List Char}
    (h : (linesFrom line text).all (!allBlank ·) = true) (hrest : '\n' :: rest <:+ text) :
    startsWithBlankLine rest = false := by
  induction text generalizing line with
  | nil => cases List.suffix_nil.mp hrest
  | cons c text ih =>
      rw [linesFrom] at h
      rcases List.suffix_cons_iff.mp hrest with heq | hsuffix
      · cases heq
        rw [if_pos (by rfl), List.all_cons, Bool.and_eq_true] at h
        rw [← Bool.not_eq_true]
        intro hblank
        rw [linesFrom_of_startsWithBlankLine rfl hblank] at h
        cases h.2
      · split at h
        · rw [List.all_cons, Bool.and_eq_true] at h
          exact ih h.2 hsuffix
        · exact ih h hsuffix

end Text

namespace Scan

/-- As long as nothing ends the statement, a scan takes character after
character and knows where they stand. -/
theorem step_goesOn {s : Scan} {c : Char} {rest : List Char} (hmode : s.mode ≠ .directive)
    (hhash : c = '#' → Text.onlyComments s.taken.reverse = false)
    (hline : c = '\n' → Text.startsWithBlankLine rest = false)
    (h : goesOn s.place c rest = true) :
    s.step c rest = ([], s.goTo c (s.place.after false c rest)) := by
  refine step_takes hmode ?_ ?_
  · rintro (⟨rfl, hends⟩ | ⟨rfl, hcode, hdepth⟩)
    · unfold endsAt at hends
      split at hends
      · rename_i hdepth
        rw [goesOn, Bool.and_eq_true] at h
        have hdot := h.2
        rw [newlineBracketed, place, hdepth] at hdot
        rw [bne, show ((Text.trimStart rest).head? == some '.') = true from hdot] at hends
        cases hends
      · rw [hline rfl] at hends
        cases hends
    · rw [goesOn, semicolonBracketed, place, hcode, hdepth] at h
      cases h
  · rintro ⟨hc, -, honly⟩
    rw [hhash hc] at honly
    cases honly

/-- Where something ends the statement, a scan closes it. -/
theorem ends_of_goesOn {s : Scan} {c : Char} {rest : List Char}
    (h : goesOn s.place c rest = false) : s.Ends c rest := by
  rw [goesOn, Bool.and_eq_false_iff] at h
  rcases h with h | h
  · -- a semicolon of code outside brackets
    simp only [semicolonBracketed, place, Bool.or_eq_false_iff, bne_eq_false_iff_eq] at h
    obtain ⟨⟨hc, hcode⟩, hdepth⟩ := h
    exact .inr ⟨hc, hcode, Nat.eq_zero_of_not_pos (of_decide_eq_false hdepth)⟩
  · -- a newline outside brackets, and no line that goes on
    simp only [newlineBracketed, place, Bool.or_eq_false_iff, bne_eq_false_iff_eq] at h
    obtain ⟨⟨hc, hdepth⟩, hdot⟩ := h
    refine .inl ⟨hc, ?_⟩
    rw [endsAt, if_pos (Nat.eq_zero_of_not_pos (of_decide_eq_false hdepth)), bne, hdot]
    rfl

section Code

-- a text that begins with code
variable {c₀ : Char} {tail : List Char} (hblank : Text.isBlank c₀ = false)
  (hdash : c₀ = '-' → tail.head? ≠ some '-')

include hblank hdash

/-- A text with code in it is not only comments. -/
theorem onlyComments_of_code {first rest : List Char} (htail : first ++ rest = tail) :
    Text.onlyComments (c₀ :: first) = false := by
  refine Text.onlyComments_cons hblank fun hc hhead => hdash hc ?_
  rw [← htail, List.head?_append, hhead]
  rfl

/-- A stretch with code in it is closed as a statement. -/
theorem close_of_code {s : Scan} {first rest : List Char} (hstart : s.start = 0)
    (htaken : s.taken.reverse = c₀ :: first) (htail : first ++ rest = tail) :
    s.close = [⟨.statement (Text.trim (c₀ :: first)), 0⟩] := by
  unfold close
  dsimp only
  rw [htaken, onlyComments_of_code hblank hdash htail, hstart, List.takeWhile_cons, hblank]
  rfl

/-- Scans the rest of a text that begins with code and has no blank
line: one piece is found exactly when nothing ends the statement. -/
theorem pieces_eq_singleton_iff (htrim : Text.trim (c₀ :: tail) = c₀ :: tail)
    (hline : ∀ rest, '\n' :: rest <:+ tail → Text.startsWithBlankLine rest = false)
    {s : Scan} {first rest : List Char} (hmode : s.mode ≠ .directive) (hstart : s.start = 0)
    (htaken : s.taken.reverse = c₀ :: first) (htail : first ++ rest = tail) :
    s.pieces rest = [⟨.statement (c₀ :: tail), 0⟩] ↔ every false goesOn s.place rest = true := by
  have hclose := close_of_code hblank hdash hstart htaken htail
  induction rest generalizing s first with
  | nil =>
      rw [List.append_nil] at htail
      rw [pieces, hclose, htail, htrim]
      exact ⟨fun _ => rfl, fun _ => rfl⟩
  | cons c rest ih =>
      rw [pieces_cons, every]
      cases hgoes : goesOn s.place c rest with
      | true =>
          have hhash : c = '#' → Text.onlyComments s.taken.reverse = false := by
            intro _
            rw [htaken]
            exact onlyComments_of_code hblank hdash htail
          have hnewline : c = '\n' → Text.startsWithBlankLine rest = false := by
            rintro rfl
            exact hline rest ⟨first, htail⟩
          have htaken' : (s.goTo c (s.place.after false c rest)).taken.reverse =
              c₀ :: (first ++ [c]) := by
            show (c :: s.taken).reverse = _
            rw [List.reverse_cons, htaken, List.cons_append]
          have htail' : first ++ [c] ++ rest = tail := by
            rw [List.append_assoc]
            exact htail
          rw [step_goesOn hmode hhash hnewline hgoes, Bool.true_and]
          exact ih (after_mode hmode false c rest) hstart htaken' htail'
            (close_of_code hblank hdash hstart htaken' htail')
      | false =>
          -- the piece found is shorter than the text
          have hlonger : (Text.trim (c₀ :: first)).length < (c₀ :: tail).length := by
            have hle := Text.length_trim_le (c₀ :: first)
            rw [← htail]
            simp only [List.length_cons, List.length_append] at hle ⊢
            omega
          constructor
          · intro hone
            rw [step_ends (ends_of_goesOn hgoes), hclose, List.singleton_append,
              List.cons.injEq] at hone
            have htext : Text.trim (c₀ :: first) = c₀ :: tail := by simpa using hone.1
            rw [htext] at hlonger
            exact absurd hlonger (Nat.lt_irrefl _)
          · intro hfalse
            cases hfalse

end Code

end Scan

/-- A comment outside brackets that holds no newline goes on to the end. -/
theorem Cursor.skipFrom_comment {offset : Nat} {text : List Char}
    (h : every true newlineBracketed ⟨.comment, 0⟩ text = true) :
    (Cursor.skipFrom true offset text).rest = [] := by
  induction text generalizing offset with
  | nil => rfl
  | cons c text ih =>
      rw [every, Bool.and_eq_true] at h
      have hc : c ≠ '\n' := by simpa [newlineBracketed] using h.1
      have hafter : after true ⟨.comment, 0⟩ c text = ⟨.comment, 0⟩ := by simp [after, hc]
      rw [hafter] at h
      show (Cursor.skipFrom (c != '\n') _ text).rest = []
      rw [bne_iff_ne.mpr hc]
      exact ih h.2

/-- A text that is a sentence, without blanks around it, with its newlines
inside brackets and no blank line, is one piece if its strings keep to
their lines. In general it is one piece exactly if nothing in it ends a
statement for a reader that gives a string up at the end of its line. -/
theorem Piece.split_of_sentence {text : List Char} {s : Sentence}
    (hread : Sentence.read text = .ok s) (htrim : Text.trim text = text)
    (hnewline : every true newlineBracketed {} text = true) (hline : Text.noBlankLine text = true) :
    (every true stringInLine {} text = true → Piece.split text = [⟨.statement text, 0⟩]) ∧
      (Piece.split text = [⟨.statement text, 0⟩] ↔ every false goesOn {} text = true) := by
  have hheld := Sentence.held_of_read hread
  have hiff : Piece.split text = [⟨.statement text, 0⟩] ↔ every false goesOn {} text = true := by
    cases text with
    | nil => exact absurd rfl (Sentence.skip_ne_nil_of_read hread)
    | cons c₀ tail =>
        have hblank := Text.isBlank_head_of_trim htrim
        have hdash : c₀ = '-' → tail.head? ≠ some '-' := by
          -- a comment outside brackets would be all there is
          rintro rfl hhead
          obtain ⟨tail, rfl⟩ := List.head?_eq_some_iff.mp hhead
          exact Sentence.skip_ne_nil_of_read hread (Cursor.skipFrom_comment hnewline)
        have hc₀ : c₀ ≠ '\n' := by
          rintro rfl
          cases hblank
        obtain ⟨hfirst, -⟩ := (Bool.and_eq_true _ _).mp hheld
        rw [inSentence, Bool.and_eq_true] at hfirst
        have hgoes : goesOn {} c₀ tail = true := by
          rw [goesOn, hfirst.1]
          simp [newlineBracketed, hc₀]
        have hstep : ({} : Scan).step c₀ tail = ([], Scan.goTo {} c₀ (after false {} c₀ tail)) := by
          refine Scan.step_goesOn (by decide) ?_ (fun h => absurd h hc₀) hgoes
          rintro rfl
          exact absurd hfirst.2 (by decide)
        rw [Piece.split, Scan.pieces, hstep, every, hgoes, Bool.true_and]
        refine Scan.pieces_eq_singleton_iff hblank hdash htrim ?_ ?_ rfl rfl rfl
        · exact fun rest hrest =>
            Text.startsWithBlankLine_of_linesFrom hline (hrest.trans (List.suffix_cons c₀ tail))
        · exact after_mode (by decide) false c₀ tail
  exact ⟨fun hstring => hiff.mpr (every_linewise hstring hnewline hheld), hiff⟩

/-- `f(-- ;⏎'(;')` is one piece: brackets and semicolons of comments
and strings do not count. The string of `('a⏎); b')` goes on after the
end of its line. The grammar reads one sentence, while the scanner takes
the second line for code, closes the bracket there and cuts at the
semicolon. -/
theorem Piece.split_of_sentence_string_over_lines :
    let kept := ['f', '(', '-', '-', ' ', ';', '\n', '\'', '(', ';', '\'', ')']
    let cut := ['(', '\'', 'a', '\n', ')', ';', ' ', 'b', '\'', ')']
    Sentence.read kept = .ok (.expression (.call 0 "f" [.text 7 "(;"])) ∧
      Sentence.read cut = .ok (.expression (.text 1 "a\n); b")) ∧
      (∀ text ∈ [kept, cut], Text.trim text = text ∧
        every true newlineBracketed {} text = true ∧ Text.noBlankLine text = true) ∧
      Piece.split kept = [⟨.statement kept, 0⟩] ∧ Piece.split cut ≠ [⟨.statement cut, 0⟩] := by
  intro kept cut
  have hkept : Sentence.read kept = .ok (.expression (.call 0 "f" [.text 7 "(;"])) := by rfl
  have hcut : Sentence.read cut = .ok (.expression (.text 1 "a\n); b")) := by rfl
  have hshape : ∀ text ∈ [kept, cut], Text.trim text = text ∧
      every true newlineBracketed {} text = true ∧ Text.noBlankLine text = true := by
    decide +kernel
  refine ⟨hkept, hcut, hshape, ?_, fun hone => ?_⟩
  · obtain ⟨htrim, hnewline, hline⟩ := hshape kept (by simp)
    exact (Piece.split_of_sentence hkept htrim hnewline hline).1 (by decide +kernel)
  · obtain ⟨htrim, hnewline, hline⟩ := hshape cut (by simp)
    have hgoes := (Piece.split_of_sentence hcut htrim hnewline hline).2.mp hone
    exact absurd hgoes (by decide +kernel)

end RelQuery
