/-
A statement, cut on its own, stays whole.

A statement is a stretch of a text without the blanks around it. When it
is scanned as a text of its own, the scan misses the blanks before it,
which changes neither what is open nor whether code has been taken
(`Agrees`), and it no longer sees what followed. Three things look ahead.
Two dashes stand next to each other inside the statement or not at all,
since no stretch is followed by a dash. The dot that keeps a newline from
ending the statement is the next code after it, and no newline is last in
a statement, so the dot is part of it. And a blank line that begins in
the statement begins in the longer text as well, so that a newline which
goes on there goes on here (`endsAt_append_of_code`).
-/
import RelQuery.Proofs.Session.Stretch

namespace RelQuery

namespace Scan

variable {s t u : Scan} {c : Char} {text blank after rest rest' : List Char}

-- ========================================================== agreement

/-- Both scans stand at the same place, and both have taken code or
neither has. -/
structure Agrees (s t : Scan) : Prop where
  place : t.place = s.place
  comments : ∀ text, Text.onlyComments (t.taken.reverse ++ text)
    = Text.onlyComments (s.taken.reverse ++ text)

namespace Agrees

/-- A line that is no directive to one scan is none to the other that
agrees. -/
theorem directs (h : s.Agrees t) (hdirects : t.Directs c) : s.Directs c := by
  obtain ⟨hc, hmode, honly⟩ := hdirects
  refine ⟨hc, (congrArg Place.mode h.place).symm.trans hmode, ?_⟩
  have hcomments := h.comments []
  rw [List.append_nil, List.append_nil] at hcomments
  exact hcomments.symm.trans honly

/-- What ends a statement for one scan ends it for the other. -/
theorem ends (h : s.Agrees t) (hline : c = '\n' → s.endsAt rest' = true → s.endsAt rest = true)
    (hends : t.Ends c rest') : s.Ends c rest := by
  have hdepth : t.depth = s.depth := congrArg Place.depth h.place
  rcases hends with ⟨hc, hends⟩ | ⟨hc, hmode, hzero⟩
  · unfold endsAt at hends
    rw [hdepth] at hends
    exact .inl ⟨hc, hline hc hends⟩
  · exact .inr ⟨hc, (congrArg Place.mode h.place).symm.trans hmode, hdepth.symm.trans hzero⟩

/-- Scans that agree still do after a character. -/
theorem follow (h : s.Agrees t) (c : Char)
    (hdash : rest'.head? = some '-' ↔ rest.head? = some '-') :
    (s.follow c rest).Agrees (t.follow c rest') := by
  constructor
  · show t.place.after false c rest' = s.place.after false c rest
    rw [h.place, Place.after_congr hdash]
  · intro text
    rw [taken_follow, taken_follow, List.reverse_cons, List.reverse_cons, List.append_assoc,
      List.append_assoc]
    exact h.comments _

end Agrees

-- ============================================================ cutting

/-- A newline that ends a statement still does so in a longer text, if
code follows it. -/
theorem endsAt_append_of_code {a b : List Char} (ha : Text.allBlank a = false)
    (h : s.endsAt a = true) : s.endsAt (a ++ b) = true := by
  unfold endsAt at h ⊢
  split
  · rename_i hdepth
    have hcode : ¬Text.allBlank a = true := Bool.eq_false_iff.mp ha
    obtain ⟨c, rest, hcons⟩ := List.exists_cons_of_ne_nil (mt Text.trimStart_eq_nil.mp hcode)
    rw [if_pos hdepth, hcons] at h
    rw [Text.trimStart_append, if_neg hcode, hcons]
    exact h
  · rename_i hdepth
    rw [if_neg hdepth, Text.startsWithBlankLine, Bool.and_eq_true, List.contains_iff_mem] at h
    obtain ⟨hline, hmem⟩ := h
    obtain ⟨line, more, rfl⟩ := List.append_of_mem hmem
    rw [Text.restOfLine_append] at hline
    rw [Text.startsWithBlankLine, List.append_assoc, List.cons_append, Text.restOfLine_append,
      hline]
    simp

/-- Leaving out the blanks at the beginning. -/
theorem Takes.skip (h : Takes s (blank ++ text) after u) (hmode : s.mode = .code)
    (hblank : Text.allBlank blank = true) :
    Takes { s with taken := blank.reverse ++ s.taken } text after u := by
  induction blank generalizing s with
  | nil => exact h
  | cons c blank ih =>
      obtain ⟨hc, hblank⟩ := Text.allBlank_cons.mp hblank
      rw [List.cons_append] at h
      cases h with
      | cons _ _ hrest =>
          have hsame : s.follow c (blank ++ text ++ after) = s.take c := by
            unfold follow
            rw [Place.after_blank hmode hc]
            rfl
          rw [hsame] at hrest
          have hskip := ih hrest hmode hblank
          rw [List.reverse_cons, List.append_assoc]
          exact hskip

/-- Leaving out the blanks at the end, and what follows. -/
theorem Takes.cut (h : Takes s (text ++ blank) after u) (hst : s.Agrees t)
    (hblank : Text.allBlank blank = true) (hafter : after.head? ≠ some '-')
    (hlast : ∀ more, more <:+ text → Text.allBlank more = true → more = []) :
    ∃ v, Takes t text [] v := by
  -- the induction is on the text; both scans go through it side by side
  induction text generalizing s t with
  | nil => exact ⟨t, .nil⟩
  | cons c text ih =>
      rw [List.cons_append] at h
      cases h with
      | cons hends hdirects hrest =>
          -- what comes next is the same character, or in the one case no dash
          have hdash : (text ++ []).head? = some '-' ↔
              (text ++ blank ++ after).head? = some '-' := by
            cases text with
            | nil =>
                refine iff_of_false nofun fun hdash => hafter ?_
                exact Text.head?_of_blank_append hblank (by decide) hdash
            | cons d text => exact Iff.rfl
          -- a line feed that ends the shorter text would end the longer one
          have hline : c = '\n' → s.endsAt (text ++ []) = true →
              s.endsAt (text ++ blank ++ after) = true := by
            rintro rfl hends
            rw [List.append_nil] at hends
            rw [List.append_assoc]
            refine endsAt_append_of_code (Bool.eq_false_iff.mpr fun hcode => ?_) hends
            cases hlast _ (List.suffix_refl _) (Text.allBlank_cons.mpr ⟨by decide, hcode⟩)
          obtain ⟨v, htakes⟩ := ih hrest (hst.follow c hdash)
            fun more hmore => hlast more (hmore.trans (List.suffix_cons c text))
          exact ⟨v, .cons (mt (hst.ends hline) hends) (mt hst.directs hdirects) htakes⟩

/-- A stretch with code in it gives one statement, and this one is all
there is when it is cut again. -/
theorem Takes.split_trim {k : Nat} (h : Takes { start := k } text after u)
    (hafter : after.head? ≠ some '-') (hcode : Text.onlyComments text = false) :
    Piece.split (Text.trim text) = [⟨.statement (Text.trim text), 0⟩] := by
  obtain ⟨blank, hblank, htext⟩ := Text.exists_trim text
  have hlead := Text.allBlank_takeWhile text
  have htrim := Text.trim_trim text
  have hagrees : Agrees { start := k, taken := (text.takeWhile Text.isBlank).reverse } {} := by
    refine ⟨rfl, fun more => ?_⟩
    rw [List.reverse_reverse, Text.onlyComments_blank_append hlead]
    rfl
  rw [htext] at h
  have hskip := h.skip rfl hlead
  rw [List.append_nil] at hskip
  obtain ⟨v, htakes⟩ := hskip.cut hagrees hblank hafter fun more hmore =>
    Text.eq_nil_of_trim htrim hmore
  have hpieces := htakes.pieces nofun
  rw [List.append_nil] at hpieces
  show ({} : Scan).pieces (Text.trim text) = _
  rw [hpieces]
  show v.close = _
  unfold close
  dsimp only
  rw [htakes.reverse_taken, Text.onlyComments_trim, hcode, htakes.start, htrim,
    Text.takeWhile_isBlank_of_trim htrim]
  rfl

/-- The statement of a stretch is found again when it is cut on its own. -/
theorem Takes.split_close {k : Nat} (h : Takes { start := k } text after u)
    (hafter : after.head? ≠ some '-') {p : Piece} (hp : p ∈ u.close) {statement : List Char}
    (hbody : p.body = .statement statement) :
    Piece.split statement = [⟨.statement statement, 0⟩] := by
  unfold close at hp
  dsimp only at hp
  rw [h.reverse_taken] at hp
  split at hp
  · cases hp
  · rename_i hcode
    cases List.mem_singleton.mp hp
    cases hbody
    exact h.split_trim hafter (Bool.eq_false_iff.mpr hcode)

/-- A statement that was cut from a text splits to itself. -/
theorem Cuts.split_statement {k : Nat} {ps : List Piece} (h : Cuts k text ps) :
    ∀ p ∈ ps, ∀ statement, p.body = .statement statement →
      Piece.split statement = [⟨.statement statement, 0⟩] := by
  induction h with
  | last htakes => exact fun p hp _ => htakes.split_close nofun hp
  | @ended k text rest c s ps htakes hends _ ih =>
      have hafter : (c :: rest).head? ≠ some '-' := by
        rcases hends with ⟨rfl, -⟩ | ⟨rfl, -⟩
        · simp
        · simp
      intro p hp statement hbody
      rcases List.mem_append.mp hp with hp | hp
      · exact htakes.split_close hafter hp hbody
      · exact ih p hp statement hbody
  | directive _ _ _ _ _ _ ih => exact List.forall_mem_cons.mpr ⟨nofun, ih⟩

end Scan

namespace Piece

/-- The statement of a piece, unless it is a directive. -/
def statement? (p : Piece) : Option (List Char) :=
  match p.body with
  | .statement text => some text
  | .directive _ => none

/-- The statements of a text, in order. -/
def statements (source : List Char) : List (List Char) :=
  (split source).filterMap statement?

/-- A statement of a text is one piece when it is cut on its own, whatever
it leaves open. Cutting a text piece by piece therefore gives the same
statements as cutting it as a whole. -/
theorem statement_splits_to_itself (source : List Char) :
    (∀ p ∈ split source, ∀ text, p.body = .statement text →
      split text = [⟨.statement text, 0⟩]) ∧
    (statements source).flatMap statements = statements source := by
  have hsplit := (Scan.cuts_split source).split_statement
  refine ⟨hsplit, ?_⟩
  -- each statement of the text is the only one of itself
  have hone : ∀ text ∈ statements source, statements text = [text] := by
    intro text htext
    obtain ⟨p, hp, hbody⟩ := List.mem_filterMap.mp htext
    obtain ⟨body, offset⟩ := p
    cases body with
    | statement text' =>
        cases hbody
        rw [statements, hsplit _ hp text rfl]
        rfl
    | directive text' => cases hbody
  calc (statements source).flatMap statements
      = (statements source).flatMap fun text => [text] := by
        rw [List.flatMap_def, List.map_congr_left hone, List.flatMap_def]
    _ = statements source := List.flatMap_singleton' _

/-- An open bracket before a blank line, a string that is given up at the
end of its line, and a comment before a line that goes on with a dot. -/
theorem statement_splits_to_itself_open_ends :
    let bracket := ['f', '(', 'x']
    let string := ['\'', 'a', ' ', ';']
    let chain := ['-', '-', ' ', 'c', '\n', ' ', '.', 'y']
    let source := bracket ++ ['\n', ' ', '\n'] ++ string ++ ['\n', ' '] ++ chain ++ [' ', ';']
    split source = [⟨.statement bracket, 0⟩, ⟨.statement string, 6⟩, ⟨.statement chain, 12⟩] ∧
      (∀ text ∈ [bracket, string, chain], split text = [⟨.statement text, 0⟩]) ∧
      (statements source).flatMap statements = [bracket, string, chain] := by
  intro bracket string chain source
  have hsource : split source
      = [⟨.statement bracket, 0⟩, ⟨.statement string, 6⟩, ⟨.statement chain, 12⟩] := by
    decide +kernel
  obtain ⟨hpieces, hstatements⟩ := statement_splits_to_itself source
  rw [hsource] at hpieces
  refine ⟨hsource, ?_, ?_⟩
  · simp only [List.forall_mem_cons] at hpieces ⊢
    obtain ⟨hbracket, hstring, hchain, -⟩ := hpieces
    exact ⟨hbracket _ rfl, hstring _ rfl, hchain _ rfl, nofun⟩
  · rw [hstatements, statements, hsource]
    rfl

end Piece

end RelQuery
