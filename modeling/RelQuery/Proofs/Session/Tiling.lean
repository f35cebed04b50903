/-
No part of a text is lost when it is cut.

From left to right, a text is blanks, semicolons and comments, and the
pieces in their places: a statement as it stands, or a directive with
the line that it takes (`Tiles`). The pieces are therefore in order and
apart from each other, and each is found at its offset (`Spans`).

A stretch that holds blanks and comments only gives no piece. Its
comments end with their lines: a newline or the end of the text follows
the stretch, or else the next character is code, and then the last line
of the stretch is blank. Any other stretch is one statement with blanks
around it.
-/
import RelQuery.Proofs.Session.Stretch

namespace RelQuery

/-- How a piece is written, with `rest` behind it. -/
inductive PieceBody.Written : PieceBody → List Char → List Char → Prop where
  /-- A statement is written as it is, without blanks around it. -/
  | statement {text rest : List Char} (hne : text ≠ []) (htrim : Text.trim text = text) :
      Written (.statement text) text rest
  /-- A directive takes the rest of its line. -/
  | directive {line rest : List Char} (hline : '\n' ∉ line) (hend : Text.EndsLine rest) :
      Written (.directive (Text.trim line)) ('#' :: line) rest

/-- A piece is written by at least one character. -/
theorem PieceBody.Written.ne_nil {body : PieceBody} {text rest : List Char}
    (h : body.Written text rest) : text ≠ [] := by
  cases h with
  | statement hne _ => exact hne
  | directive _ _ => exact List.cons_ne_nil _ _

namespace Piece

/-- The piece stands in the text from its offset up to `stop`. -/
def Spans (source : List Char) (p : Piece) (stop : Nat) : Prop :=
  ∃ before text rest, source = before ++ (text ++ rest) ∧ p.offset = Text.byteLength before ∧
    stop = p.offset + Text.byteLength text ∧ p.body.Written text rest

/-- Blanks, semicolons, comments and pieces make up a text that begins at
byte `k`. -/
inductive Tiles : Nat → List Char → List Piece → Prop where
  | nil {k : Nat} : Tiles k [] []
  | blank {k : Nat} {c : Char} {rest : List Char} {ps : List Piece} (hc : Text.isBlank c = true)
      (hrest : Tiles (k + c.utf8Size) rest ps) : Tiles k (c :: rest) ps
  | semicolon {k : Nat} {rest : List Char} {ps : List Piece}
      (hrest : Tiles (k + ';'.utf8Size) rest ps) : Tiles k (';' :: rest) ps
  /-- A comment takes the rest of its line. -/
  | comment {k : Nat} {line rest : List Char} {ps : List Piece} (hline : '\n' ∉ line)
      (hend : Text.EndsLine rest)
      (hrest : Tiles (k + Text.byteLength ('-' :: '-' :: line)) rest ps) :
      Tiles k ('-' :: '-' :: (line ++ rest)) ps
  | piece {k : Nat} {body : PieceBody} {text rest : List Char} {ps : List Piece}
      (hbody : body.Written text rest) (hrest : Tiles (k + Text.byteLength text) rest ps) :
      Tiles k (text ++ rest) (⟨body, k⟩ :: ps)

namespace Tiles

variable {k : Nat} {text rest : List Char} {ps : List Piece} {s : Scan}

-- ============================================================ order

/-- Pieces start no earlier than their text. -/
theorem le_offset (h : Tiles k text ps) : ∀ p ∈ ps, k ≤ p.offset := by
  induction h with
  | nil => nofun
  | blank _ _ ih | semicolon _ ih | comment _ _ _ ih =>
      exact fun p hp => Nat.le_trans (Nat.le_add_right _ _) (ih p hp)
  | piece _ _ ih =>
      refine List.forall_mem_cons.mpr ⟨Nat.le_refl _, fun p hp => ?_⟩
      exact Nat.le_trans (Nat.le_add_right _ _) (ih p hp)

/-- Every piece stands in the text, and ends before the next one begins;
`before` is what stands before the tiles. -/
theorem spans (h : Tiles k text ps) (before : List Char) (hk : k = Text.byteLength before) :
    (∀ p ∈ ps, ∃ stop, p.Spans (before ++ text) stop) ∧
      ps.Pairwise fun p q => ∃ stop, p.Spans (before ++ text) stop ∧ stop ≤ q.offset := by
  induction h generalizing before with
  | nil => exact ⟨nofun, .nil⟩
  | @blank k c rest ps _ _ ih =>
      have hwhole := ih (before ++ [c])
        (by rw [Text.byteLength_append, Text.byteLength_cons, hk]; rfl)
      rwa [List.append_assoc, List.singleton_append] at hwhole
  | @semicolon k rest ps _ ih =>
      have hwhole := ih (before ++ [';']) (by rw [Text.byteLength_append, hk]; rfl)
      rwa [List.append_assoc, List.singleton_append] at hwhole
  | @comment k line rest ps _ _ _ ih =>
      have hwhole := ih (before ++ '-' :: '-' :: line) (by rw [Text.byteLength_append, hk])
      rwa [List.append_assoc] at hwhole
  | @piece k body text rest ps hbody hrest ih =>
      obtain ⟨hstand, horder⟩ := ih (before ++ text) (by rw [Text.byteLength_append, hk])
      rw [List.append_assoc] at hstand horder
      have hfirst : Spans (before ++ (text ++ rest)) ⟨body, k⟩ (k + Text.byteLength text) :=
        ⟨before, text, rest, rfl, hk, rfl, hbody⟩
      refine ⟨List.forall_mem_cons.mpr ⟨⟨_, hfirst⟩, hstand⟩, .cons (fun q hq => ?_) horder⟩
      exact ⟨_, hfirst, hrest.le_offset q hq⟩

-- ======================================================== stretches

/-- Blanks in front of a text do not disturb its tiling. -/
theorem blanks {blank : List Char} (hblank : Text.allBlank blank = true)
    (h : Tiles (k + Text.byteLength blank) rest ps) : Tiles k (blank ++ rest) ps := by
  induction blank generalizing k with
  | nil => exact h
  | cons c blank ih =>
      obtain ⟨hc, hblank⟩ := Text.allBlank_cons.mp hblank
      rw [Text.byteLength_cons, ← Nat.add_assoc] at h
      exact .blank hc (ih hblank h)

/-- A text of blanks and comments, whose last comment goes on to the end
of its line. -/
theorem comments (honly : Text.onlyComments text = true) (k : Nat)
    (hend : Text.EndsLine rest ∨ Text.allBlank (Text.restOfLine text.reverse) = true)
    (h : Tiles (k + Text.byteLength text) rest ps) : Tiles k (text ++ rest) ps := by
  revert k hend h
  -- the text is built up from blanks and comments
  refine Text.comments_induction ?nil ?blank ?comment text honly
  case nil => exact fun _ _ h => h
  case blank =>
    intro c text hc ih k hend h
    rw [Text.byteLength_cons, ← Nat.add_assoc] at h
    refine .blank hc (ih _ (hend.imp_right fun hlast => ?_) h)
    rw [List.reverse_cons] at hlast
    exact Text.allBlank_restOfLine_append hlast
  case comment =>
    intro text ih k hend h
    -- a comment is one line, and what is past it is again blanks and comments
    have hsplit : '-' :: '-' :: text
        = '-' :: '-' :: Text.restOfLine text ++ Text.pastLine text := by
      rw [List.cons_append, List.cons_append, Text.restOfLine_append_pastLine]
    have hline := Text.not_mem_restOfLine text
    rw [hsplit] at h hend ⊢
    rw [Text.byteLength_append, ← Nat.add_assoc] at h
    rw [List.append_assoc]
    rcases Text.endsLine_pastLine text with hpast | ⟨more, hpast⟩
    · -- the comment is the last line, which is not blank
      rw [hpast] at h hend ⊢
      refine .comment hline (hend.resolve_right fun hlast => ?_) h
      rw [List.append_nil, Text.restOfLine_eq_self (by simpa using hline)] at hlast
      rw [Text.allBlank, List.all_reverse] at hlast
      cases hlast
    -- more lines follow, so this one ends with a line feed
    · rw [hpast] at ih h hend ⊢
      refine .comment hline (.inr ⟨_, rfl⟩) (ih _ (hend.imp_right fun hlast => ?_) h)
      rw [List.reverse_append] at hlast
      exact Text.allBlank_restOfLine_append hlast

/-- A stretch is blanks and comments only, or a statement with blanks
around it. -/
theorem close (hstart : s.start = k)
    (hend : Text.onlyComments s.taken.reverse = true →
      Text.EndsLine rest ∨ Text.allBlank (Text.restOfLine s.taken) = true)
    (h : Tiles (k + Text.byteLength s.taken.reverse) rest ps) :
    Tiles k (s.taken.reverse ++ rest) (s.close ++ ps) := by
  unfold Scan.close
  dsimp only
  -- a stretch of comments is no piece, and otherwise its trimmed text is one
  split
  · rename_i honly
    refine comments honly k ?_ h
    rw [List.reverse_reverse]
    exact hend honly
  · rename_i hcode
    obtain ⟨blank, hblank, htext⟩ := Text.exists_trim s.taken.reverse
    have hne : Text.trim s.taken.reverse ≠ [] := by
      intro hnil
      rw [← Text.onlyComments_trim, hnil] at hcode
      exact hcode rfl
    have hlength := congrArg Text.byteLength htext
    rw [Text.byteLength_append, Text.byteLength_append] at hlength
    have hwhole : s.taken.reverse ++ rest = s.taken.reverse.takeWhile Text.isBlank
        ++ (Text.trim s.taken.reverse ++ (blank ++ rest)) := by
      rw [← List.append_assoc, ← List.append_assoc, List.append_assoc (List.takeWhile _ _), ← htext]
    rw [hwhole, hstart]
    rw [hlength, ← Nat.add_assoc, ← Nat.add_assoc] at h
    refine blanks (Text.allBlank_takeWhile _) (.piece (.statement hne (Text.trim_trim _)) ?_)
    exact blanks hblank h

end Tiles

/-- The stretches of a text and what ends them are its tiles. -/
theorem tiles_of_cuts {k : Nat} {text : List Char} {ps : List Piece} (h : Scan.Cuts k text ps) :
    Tiles k text ps := by
  -- a stretch of comments alone that ends in code has a blank last line
  have hlast {k : Nat} {text after : List Char} {s : Scan}
      (htakes : Scan.Takes { start := k } text after s) (hmode : s.mode = .code)
      (honly : Text.onlyComments text = true) :
      Text.allBlank (Text.restOfLine s.taken) = true := by
    rw [← htakes.reverse_taken] at honly
    exact (htakes.idles nofun (Scan.idles_fresh _ _) (.inl honly)).lastLine hmode
  -- the induction is on the stretches
  induction h with
  | @last k text s htakes =>
      have hclose : Tiles k (s.taken.reverse ++ []) (s.close ++ []) :=
        Tiles.close htakes.start (fun _ => .inl (.inl rfl)) .nil
      rw [htakes.reverse_taken, List.append_nil, List.append_nil] at hclose
      exact hclose
  | @ended k text rest c s ps htakes hends _ ih =>
      -- what ends the stretch is a tile of its own
      have hnext : Tiles s.offset (c :: rest) ps := by
        rcases hends with ⟨rfl, -⟩ | ⟨rfl, -⟩
        · exact .blank (by decide) ih
        · exact .semicolon ih
      rw [htakes.offset] at hnext
      rw [← htakes.reverse_taken] at hnext ⊢
      refine Tiles.close htakes.start (fun honly => ?_) hnext
      rw [htakes.reverse_taken] at honly
      rcases hends with ⟨rfl, -⟩ | ⟨-, hmode, -⟩
      · exact .inl (.inr ⟨rest, rfl⟩)
      · exact .inr (hlast htakes hmode honly)
  | @directive k text line rest s ps htakes hmode honly hline hend _ ih =>
      rw [Nat.add_assoc] at ih
      -- and so is a directive with the rest of its line
      have hnext : Tiles s.offset ('#' :: line ++ rest)
          (⟨.directive (Text.trim line), s.offset⟩ :: ps) := by
        refine .piece (.directive hline hend) ?_
        rw [Text.byteLength_cons]
        exact ih
      rw [htakes.offset] at hnext ⊢
      refine Tiles.comments honly k (.inr ?_) hnext
      rw [← htakes.reverse_taken, List.reverse_reverse]
      exact hlast htakes hmode honly

/-- Cutting a text loses nothing of it. Its pieces are in order and apart
from each other; a statement is found at its offset as it stands, without
blanks around it, and a directive with the line that it takes; and what
stands between the pieces is blanks, semicolons and comments. -/
theorem split_loses_nothing (source : List Char) :
    Tiles 0 source (split source) ∧
    (split source).Pairwise (fun p q => ∃ stop, p.Spans source stop ∧ stop ≤ q.offset) ∧
    ∀ p ∈ split source, ∃ stop, p.Spans source stop ∧ p.offset < stop := by
  have htiles := tiles_of_cuts (Scan.cuts_split source)
  obtain ⟨hstand, horder⟩ := htiles.spans [] rfl
  refine ⟨htiles, horder, fun p hp => ?_⟩
  obtain ⟨stop, hspans⟩ := hstand p hp
  refine ⟨stop, hspans, ?_⟩
  obtain ⟨before, text, rest, -, -, rfl, hwritten⟩ := hspans
  have hlength := Text.length_le_byteLength text
  have hpos := List.length_pos_iff.mpr hwritten.ne_nil
  omega

/-- A comment of more bytes than characters, a directive after it, and
statements that share a line. -/
theorem split_loses_nothing_shared_line :
    let source := ['-', '-', 'é', '\n', '#', 't', ' ', '\n', ' ', 'x', ';', ' ', 'y']
    split source = [⟨.directive ['t'], 5⟩, ⟨.statement ['x'], 10⟩, ⟨.statement ['y'], 13⟩] ∧
      Tiles 0 source (split source) ∧
      ∃ stop, Spans source ⟨.statement ['x'], 10⟩ stop ∧ stop ≤ 13 := by
  intro source
  have hsource : split source
      = [⟨.directive ['t'], 5⟩, ⟨.statement ['x'], 10⟩, ⟨.statement ['y'], 13⟩] := by
    decide +kernel
  obtain ⟨htiles, horder, -⟩ := split_loses_nothing source
  refine ⟨hsource, htiles, ?_⟩
  rw [hsource] at horder
  simp only [List.pairwise_cons] at horder
  exact horder.2.1 _ (List.mem_singleton.mpr rfl)

end Piece

end RelQuery
