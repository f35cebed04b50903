/-
The stretches of a text.

A scan takes characters into an open stretch until one ends it: a
newline or a semicolon closes it, and a directive may begin where the
stretch so far is of no account. The next stretch then begins afresh,
whatever went before. So a text is cut into stretches, each of which is
taken as a whole (`Takes`) by a scan that has just begun, and what holds
of all pieces of a text can be shown stretch by stretch (`Cuts`).

Whether a stretch is of no account is told from its lines, while the
scan goes by characters. The two agree (`Idles`): as long as a stretch
holds blanks and comments only, no bracket and no string is open, and a
comment has either reached the end of its line or is still being read.
The invariant has to look ahead to the end of the line, since one dash
on its own is code, and the next one makes it a comment.
-/
import RelQuery.Proofs.Session.Splitting

namespace RelQuery

namespace Scan

variable {s t : Scan} {c : Char} {text after rest : List Char}

-- ========================================================= stretches

/-- A scan takes every character of a text, with `after` behind it. -/
inductive Takes : Scan → List Char → List Char → Scan → Prop where
  | nil {s : Scan} {after : List Char} : Takes s [] after s
  | cons {s t : Scan} {c : Char} {text after : List Char} (hends : ¬s.Ends c (text ++ after))
      (hdirects : ¬s.Directs c) (hrest : Takes (s.follow c (text ++ after)) text after t) :
      Takes s (c :: text) after t

namespace Takes

/-- A character that ends nothing may be taken too. -/
theorem snoc (h : Takes s text (c :: after) t) (hends : ¬t.Ends c after) (hdirects : ¬t.Directs c) :
    Takes s (text ++ [c]) after (t.follow c after) := by
  induction text generalizing s with
  | nil =>
      cases h
      exact .cons hends hdirects .nil
  | cons d text ih =>
      cases h with
      | cons hends' hdirects' hrest =>
          have happend : text ++ [c] ++ after = text ++ c :: after := by
            rw [List.append_assoc, List.singleton_append]
          rw [← happend] at hends' hrest
          exact .cons hends' hdirects' (ih hrest)

/-- What a stretch has taken is its text, the last character first. -/
theorem taken (h : Takes s text after t) : t.taken = text.reverse ++ s.taken := by
  induction h with
  | nil => rfl
  | cons _ _ _ ih =>
      rw [ih, List.reverse_cons, List.append_assoc]
      rfl

/-- A stretch begins where the scan did. -/
theorem start (h : Takes s text after t) : t.start = s.start := by
  induction h with
  | nil => rfl
  | cons _ _ _ ih => exact ih

/-- What is found comes after the text. -/
theorem pieces (h : Takes s text after t) (hmode : s.mode ≠ .directive) :
    s.pieces (text ++ after) = t.pieces after := by
  induction h with
  | nil => rfl
  | cons hends hdirects _ ih =>
      rw [List.cons_append, pieces_cons, step_takes hmode hends hdirects]
      exact ih (Place.after_mode hmode false _ _)

/-- What a scan that has just begun has taken, and where it is. -/
theorem reverse_taken {k : Nat} (h : Takes { start := k } text after t) :
    t.taken.reverse = text := by
  rw [h.taken, List.append_nil, List.reverse_reverse]

/-- A stretch ends as many bytes further on as its text has. -/
theorem offset {k : Nat} (h : Takes { start := k } text after t) :
    t.offset = k + Text.byteLength text := by
  have hlength (text : List Char) : Text.byteLength text.reverse = Text.byteLength text := by
    induction text with
    | nil => rfl
    | cons c text ih =>
        rw [List.reverse_cons, Text.byteLength_append, ih, Text.byteLength_cons,
          Text.byteLength_cons, Nat.add_comm]
        rfl
  rw [Scan.offset, h.start, h.taken, List.append_nil, hlength]

end Takes

-- ====================================================== idle stretches

/-- No bracket and no string is open, and where code may follow the last
line is blank. -/
structure IsClear (s : Scan) : Prop where
  depth : s.depth = 0
  string : s.mode ≠ .string
  lastLine : s.mode = .code → Text.allBlank (Text.restOfLine s.taken) = true

/-- If the stretch holds blanks and comments only, as far as it goes or to
the end of its line, then nothing is open. -/
def Idles (s : Scan) (rest : List Char) : Prop :=
  Text.onlyComments s.taken.reverse = true ∨
      Text.onlyComments (s.taken.reverse ++ Text.restOfLine rest) = true →
    s.IsClear

theorem idles_fresh (k : Nat) (rest : List Char) : Idles { start := k } rest :=
  fun _ => ⟨rfl, nofun, fun _ => rfl⟩

/-- Following a character keeps the invariant. -/
theorem Idles.follow (h : s.Idles (c :: rest)) (hmode : s.mode ≠ .directive) :
    (s.follow c rest).Idles rest := by
  have htaken : (s.follow c rest).taken = c :: s.taken := rfl
  have hreverse : (s.follow c rest).taken.reverse = s.taken.reverse ++ [c] := by
    rw [htaken, List.reverse_cons]
  intro honly
  by_cases hnew : c = '\n'
  · subst hnew
    have hbefore : Text.onlyComments s.taken.reverse = true := by
      rw [hreverse] at honly
      rcases honly with honly | honly
      · rw [← Text.onlyComments_snoc (c := '\n') (by decide)]
        exact honly
      · rw [List.append_assoc, List.singleton_append, Text.onlyComments_newline,
          Bool.and_eq_true] at honly
        exact honly.1
    unfold Scan.follow
    rw [Place.after_newline]
    exact ⟨(h (.inl hbefore)).depth, nofun, fun _ => rfl⟩
  have hline : (s.follow c rest).taken.reverse ++ Text.restOfLine rest
      = s.taken.reverse ++ Text.restOfLine (c :: rest) := by
    rw [hreverse, List.append_assoc, Text.restOfLine_cons hnew, List.singleton_append]
  -- the stretch was idle before, and in code a blank follows or a comment begins
  have hbefore : s.IsClear ∧
      (s.mode = .code → Text.isBlank c = true ∨ c = '-' ∧ rest.head? = some '-') := by
    have hwhole (honly : Text.onlyComments (s.taken.reverse ++
        Text.restOfLine (c :: rest)) = true) :
        s.IsClear ∧
          (s.mode = .code → Text.isBlank c = true ∨ c = '-' ∧ rest.head? = some '-') := by
      have hidle := h (.inr honly)
      refine ⟨hidle, fun hcode => ?_⟩
      rw [Text.onlyComments_reverse_append (hidle.lastLine hcode), Bool.and_eq_true,
        Text.restOfLine_cons hnew] at honly
      by_contra hnext
      obtain ⟨hblank, hdashes⟩ := not_or.mp hnext
      have hcode' : Text.onlyComments (c :: Text.restOfLine rest) = false :=
        Text.onlyComments_cons (Bool.eq_false_iff.mpr hblank) fun hdash hhead =>
          hdashes ⟨hdash, Text.head?_of_restOfLine hhead⟩
      rw [hcode'] at honly
      cases honly.2
    rcases honly with honly | honly
    · rw [hreverse] at honly
      rcases Text.onlyComments_line honly with hlast | hgoes
      · rw [← hreverse, List.reverse_reverse, htaken, Text.restOfLine_cons hnew,
          Text.allBlank_cons] at hlast
        rw [Text.onlyComments_snoc hlast.1] at honly
        exact ⟨h (.inl honly), fun _ => .inl hlast.1⟩
      · refine hwhole ?_
        rw [← hline, hreverse]
        exact hgoes _ (Text.not_mem_restOfLine rest)
    · rw [hline] at honly
      exact hwhole honly
  obtain ⟨hclear, hnext⟩ := hbefore
  have htake (hsame : s.place.after false c rest = s.place)
      (hblank : s.mode = .code → Text.isBlank c = true) : (s.follow c rest).IsClear := by
    unfold Scan.follow
    rw [hsame]
    refine ⟨hclear.depth, hclear.string, fun hcode => ?_⟩
    show Text.allBlank (Text.restOfLine (c :: s.taken)) = true
    rw [Text.restOfLine_cons hnew, Text.allBlank_cons]
    exact ⟨hblank hcode, hclear.lastLine hcode⟩
  cases hm : s.mode with
  | directive => exact absurd hm hmode
  | string => exact absurd hm hclear.string
  | comment =>
      refine htake (Place.after_comment hm hnew false rest) fun hcode => ?_
      rw [hm] at hcode
      cases hcode
  | code =>
      rcases hnext hm with hblank | ⟨rfl, hhead⟩
      · exact htake (Place.after_blank hm hblank false rest) fun _ => hblank
      · unfold Scan.follow
        rw [Place.after_dashes hm false hhead]
        exact ⟨hclear.depth, nofun, nofun⟩

/-- A scan that idles over a stretch still does behind it. -/
theorem Takes.idles (h : Takes s text after t) (hmode : s.mode ≠ .directive)
    (hidles : s.Idles (text ++ after)) : t.Idles after := by
  induction h with
  | nil => exact hidles
  | cons _ _ _ ih => exact ih (Place.after_mode hmode false _ _) (hidles.follow hmode)

-- =========================================================== cutting

/-- A text is cut into stretches, and these give its pieces; the text
begins at byte `k`. -/
inductive Cuts : Nat → List Char → List Piece → Prop where
  /-- The last stretch goes on to the end. -/
  | last {k : Nat} {text : List Char} {s : Scan} (htakes : Takes { start := k } text [] s) :
      Cuts k text s.close
  /-- A newline or a semicolon ends a stretch. -/
  | ended {k : Nat} {text rest : List Char} {c : Char} {s : Scan} {ps : List Piece}
      (htakes : Takes { start := k } text (c :: rest) s)
      (hends : s.Ends c rest) (hrest : Cuts (s.offset + c.utf8Size) rest ps) :
      Cuts k (text ++ c :: rest) (s.close ++ ps)
  /-- After a stretch of no account a directive takes its line. -/
  | directive {k : Nat} {text line rest : List Char} {s : Scan} {ps : List Piece}
      (htakes : Takes { start := k } text ('#' :: (line ++ rest)) s) (hmode : s.mode = .code)
      (honly : Text.onlyComments text = true) (hline : '\n' ∉ line) (hend : Text.EndsLine rest)
      (hrest : Cuts (s.offset + 1 + Text.byteLength line) rest ps) :
      Cuts k (text ++ '#' :: (line ++ rest)) (⟨.directive (Text.trim line), s.offset⟩ :: ps)

/-- A directive takes the rest of its line, and the scan begins afresh. -/
theorem pieces_directive (k : Nat) (rest : List Char) :
    ({ start := k, mode := .directive } : Scan).pieces rest
      = ({ start := k + Text.byteLength (Text.restOfLine rest) } : Scan).pieces
          (Text.pastLine rest) := by
  induction rest generalizing k with
  | nil => rfl
  | cons c rest ih =>
      by_cases hnew : c = '\n'
      · subst hnew
        rfl
      · have hstep : ({ start := k, mode := .directive } : Scan).step c rest
            = ([], { start := k + c.utf8Size, mode := .directive }) := by
          unfold step
          rw [if_neg (by simpa using hnew)]
          rfl
        rw [pieces, hstep, Text.restOfLine_cons hnew, Text.pastLine_cons hnew, Text.byteLength_cons,
          ← Nat.add_assoc]
        exact ih _

/-- Scanning what follows goes on with the open stretch and cuts the
rest. -/
theorem cuts_pieces (htakes : Takes { start := s.start } s.taken.reverse rest s)
    (hmode : s.mode ≠ .directive) : Cuts s.start (s.taken.reverse ++ rest) (s.pieces rest) := by
  -- the induction is on what is left to scan, for a directive takes a whole line
  -- of it
  induction hlength : rest.length using Nat.strong_induction_on generalizing s rest with
  | _ n ih =>
      subst hlength
      cases rest with
      | nil =>
          rw [List.append_nil]
          exact .last htakes
      | cons c rest =>
          -- the character ends the stretch, begins a directive, or is taken
          by_cases hends : s.Ends c rest
          · rw [pieces_cons, step_ends hends]
            refine .ended htakes hends ?_
            exact ih _ (Nat.lt_succ_self _) (s := { start := s.offset + c.utf8Size }) .nil nofun rfl
          by_cases hdirects : s.Directs c
          · obtain ⟨rfl, hcode, honly⟩ := hdirects
            -- what a directive follows is only blanks and comments, so no bracket is open
            -- there
            have hdepth := (htakes.idles nofun (idles_fresh _ _) (.inl honly)).depth
            have hbegins : ({ s.next '#' with mode := .directive } : Scan)
                = { start := s.offset + 1, mode := .directive } := by
              unfold next
              dsimp only
              rw [hdepth]
              rfl
            have hcuts := ih _ (Nat.lt_succ_of_le (Text.length_pastLine_le rest))
              (s := { start := s.offset + 1 + Text.byteLength (Text.restOfLine rest) })
                  .nil nofun rfl
            have hsplit := Text.restOfLine_append_pastLine rest
            rw [pieces_cons, step_directs ⟨rfl, hcode, honly⟩, hbegins, pieces_directive]
            rw [← hsplit] at htakes
            have hwhole := Cuts.directive htakes hcode honly (Text.not_mem_restOfLine rest)
              (Text.endsLine_pastLine rest) hcuts
            rw [hsplit] at hwhole
            exact hwhole
          -- otherwise the open stretch is one character longer
          · have hreverse : (c :: s.taken).reverse = s.taken.reverse ++ [c] := List.reverse_cons
            have hnext := htakes.snoc hends hdirects
            rw [← hreverse] at hnext
            have hcuts := ih _ (Nat.lt_succ_self _) (s := s.follow c rest) hnext
              (Place.after_mode hmode false c rest) rfl
            rw [taken_follow, hreverse, List.append_assoc, List.singleton_append] at hcuts
            rw [pieces_cons, step_takes hmode hends hdirects]
            exact hcuts

/-- A text is cut into stretches. -/
theorem cuts_split (text : List Char) : Cuts 0 text (Piece.split text) :=
  cuts_pieces (s := {}) .nil nofun

end Scan

end RelQuery
