/-
Readers stay between the characters of their text.

A cursor pairs a byte offset with the text that is left, and nothing in
it says that the two belong together. They do: whoever moves a cursor on
takes a stretch off its text and adds the bytes of that stretch. Most
readers count characters for that, and may, as names, numbers and
operators have one byte for each.

`From text c r P` says it of one run of a reader: begun at `c`, it ends
between two characters of the text, whether it reads something or
misses. What it reads satisfies `P`, together with the cursor it leaves.
A mark is the offset of a cursor with no blanks before its token
(`Cursor.skip_skip`). There a token that is found stands at the mark,
and one that is not leaves the cursor where it was (`Sees`), so that the
next alternative is tried at the same mark.
-/
import RelQuery.Proofs.Grammar.Brackets
import RelQuery.Proofs.Grammar.Marks

namespace RelQuery

open Text (TokenAt IsBoundary StandsAt)

-- ========================================================= cursors

namespace Cursor

/-- The cursor stands in the text: what it has before it is as long as
its offset. -/
def On (text : List Char) (c : Cursor) : Prop :=
  ∃ before, text = before ++ c.rest ∧ Text.byteLength before = c.offset

/-- Skipping goes on to where a token begins. -/
theorem skip_skip (c : Cursor) : c.skip.skip = c.skip := by
  have hfrom (inside : Bool) (offset : Nat) (text : List Char) :
      (skipFrom inside offset text).skip = skipFrom inside offset text := by
    fun_induction skipFrom inside offset text with
    | case1 offset => rfl
    | case2 offset c rest ih => exact ih
    | case3 inside offset c rest hinside hblank ih => exact ih
    | case4 inside offset hinside rest hblank ih => exact ih
    | case5 inside offset c rest hinside hblank hdash =>
        show skipFrom false offset (c :: rest) = _
        rw [skipFrom.eq_def]
        dsimp only
        rw [if_neg Bool.false_ne_true, if_neg hblank]
        split
        · exact absurd rfl (hdash _ rfl)
        · rfl
  exact hfrom _ _ _

namespace On

variable {text : List Char} {c : Cursor}

/-- What the text goes on with at a cursor. -/
theorem standsAt {front : List Char} (h : c.On text) (hfront : front <+: c.rest) :
    StandsAt text c.offset front := by
  obtain ⟨before, rfl, hoffset⟩ := h
  obtain ⟨after, hafter⟩ := hfront
  exact ⟨before, after, by rw [List.append_assoc, hafter], hoffset⟩

theorem isBoundary (h : c.On text) : IsBoundary text c.offset :=
  h.standsAt List.nil_prefix

/-- The characters that a cursor has before it stand at its offset. -/
theorem tokenAt {token after : List Char} (h : c.On text) (hrest : c.rest = token ++ after)
    (htoken : token ≠ []) : TokenAt text c.offset token :=
  ⟨htoken, h.standsAt ⟨after, hrest.symm⟩⟩

/-- The cursor moves on over a stretch of the text. -/
theorem advance (h : c.On text) {taken rest : List Char} (hrest : c.rest = taken ++ rest) :
    (c.advance (Text.byteLength taken) rest).On text := by
  obtain ⟨before, rfl, hoffset⟩ := h
  refine ⟨before ++ taken, by rw [hrest, List.append_assoc]; rfl, ?_⟩
  rw [Text.byteLength_append, hoffset]
  rfl

/-- Over characters of one byte it may count characters. -/
theorem advance_drop {word : List Char} (h : c.On text) (hword : word <+: c.rest)
    (hbytes : Text.byteLength word = word.length) :
    (c.advance word.length (c.rest.drop word.length)).On text := by
  obtain ⟨rest, hrest⟩ := hword
  rw [← hbytes, ← hrest, hbytes, List.drop_left, ← hbytes]
  exact h.advance hrest.symm

/-- A cursor on a text stays on it past a character. -/
theorem pass {offset : Nat} {c : Char} {rest : List Char} (h : On text ⟨offset, c :: rest⟩) :
    On text ⟨offset + c.utf8Size, rest⟩ := by
  obtain ⟨before, rfl, hoffset⟩ := h
  refine ⟨before ++ [c], by rw [List.append_assoc]; rfl, ?_⟩
  rw [Text.byteLength_append, hoffset, Text.byteLength_cons]
  rfl

/-- A cursor on a text stays on it past blanks and comments. -/
theorem skip (h : c.On text) : c.skip.On text := by
  have hfrom (inside : Bool) (offset : Nat) (rest : List Char) (h : On text ⟨offset, rest⟩) :
      (skipFrom inside offset rest).On text := by
    fun_induction skipFrom inside offset rest with
    | case1 offset => exact h
    | case2 offset c rest ih => exact ih h.pass
    | case3 inside offset c rest hinside hblank ih => exact ih h.pass
    | case4 inside offset hinside rest hblank ih => exact ih h.pass
    | case5 inside offset c rest hinside hblank hdash => exact h
  exact hfrom false c.offset c.rest h

end On

end Cursor

-- ========================================================= readers

namespace Reading

variable {α β : Type} {text : List Char} {c : Cursor}

/-- A reader has ended in the text, and what it has read satisfies `P`
with the cursor that it leaves. -/
@[reducible]
def EndsIn (text : List Char) (P : α → Cursor → Prop) : Except Miss (α × Cursor) → Prop
  | .ok (x, c) => c.On text ∧ P x c
  | .error m => m.place.On text

/-- Begun at the cursor, in the text, the reader ends in the text, and
what it reads satisfies `P`. -/
def From (text : List Char) (c : Cursor) (r : Reading α) (P : α → Cursor → Prop) : Prop :=
  c.On text → EndsIn text P (r c)

/-- Begun anywhere in the text, the reader ends in it, and what it reads
satisfies `P`. -/
def Gives (text : List Char) (r : Reading α) (P : α → Prop) : Prop :=
  ∀ c, From text c r fun x _ => P x

/-- The reader stays in the text. -/
abbrev Stays (text : List Char) (r : Reading α) : Prop := Gives text r fun _ => True

/-- How looking for a token at a cursor ends: it stands there, or the
cursor is left as it was. -/
def Sees (text : List Char) (c : Cursor) (token : List Char) : Bool → Cursor → Prop
  | true, _ => TokenAt text c.offset token
  | false, c' => c' = c

namespace From

variable {r : Reading α} {P : α → Cursor → Prop}

theorem result {x : α} (h : P x c) : From text c (pure x : Reading α) P :=
  fun hc => ⟨hc, h⟩

/-- What a reader gives may be said less exactly. -/
theorem mono {Q : α → Cursor → Prop} (hr : From text c r P) (h : ∀ x c', P x c' → Q x c') :
    From text c r Q := by
  intro hc
  have hrun := hr hc
  cases hread : r c with
  | error m =>
      rw [hread] at hrun
      exact hrun
  | ok p =>
      rw [hread] at hrun
      exact ⟨hrun.1, h _ _ hrun.2⟩

/-- The second reader starts where the first one has stopped. -/
theorem bind {f : α → Reading β} {Q : β → Cursor → Prop} (hr : From text c r P)
    (hf : ∀ x c', P x c' → From text c' (f x) Q) : From text c (r >>= f) Q := by
  intro hc
  have hrun := hr hc
  rw [bind_apply]
  cases hread : r c with
  | error m =>
      rw [hread] at hrun
      exact hrun
  | ok p =>
      rw [hread] at hrun
      exact hf p.1 p.2 hrun.2 hrun.1

/-- What a reader does in the text may be shown for a cursor in it. -/
theorem ofOn (h : c.On text → From text c r P) : From text c r P :=
  fun hc => h hc hc

/-- The place of the next token is that of the cursor past the blanks. -/
theorem mark_bind {f : Nat → Reading α} (h : From text c.skip (f c.skip.offset) P) :
    From text c (mark >>= f) P :=
  fun hc => h hc.skip

theorem ahead_bind {f : List Char → Reading α} (h : From text c.skip (f c.skip.rest) P) :
    From text c (ahead >>= f) P :=
  fun hc => h hc.skip

/-- Where a token begins, its mark is the offset. -/
theorem mark_here {f : Nat → Reading α} (hs : c.skip = c) (h : From text c (f c.offset) P) :
    From text c (mark >>= f) P :=
  .mark_bind (by rwa [hs])

/-- Where there is nothing to skip, what is ahead is the text itself. -/
theorem ahead_here {f : List Char → Reading α} (hs : c.skip = c) (h : From text c (f c.rest) P) :
    From text c (ahead >>= f) P :=
  .ahead_bind (by rwa [hs])

/-- A miss may be reported otherwise, but not elsewhere. -/
theorem onMiss {f : Miss → Miss} (hr : From text c r P) (hf : ∀ m, (f m).place = m.place) :
    From text c (onMiss f r) P := by
  intro hc
  have hrun := hr hc
  unfold Reading.onMiss
  cases hread : r c with
  | error m =>
      rw [hread] at hrun
      show (f m).place.On text
      rw [hf]
      exact hrun
  | ok p =>
      rw [hread] at hrun
      exact hrun

theorem required {label : Label} (hr : From text c r P) : From text c (required label r) P :=
  hr.onMiss fun _ => rfl

theorem wanting {t : String} (hr : From text c r P) : From text c (wanting t r) P :=
  hr.onMiss fun _ => rfl

/-- An alternative that misses leaves the cursor where it was. -/
theorem optional (hr : From text c r P) : From text c (optional r) fun o c' =>
    match o with
    | some x => P x c'
    | none => c' = c := by
  intro hc
  have hrun := hr hc
  unfold Reading.optional
  cases hread : r c with
  | error m =>
      rw [hread] at hrun
      dsimp only
      split
      · exact hrun
      · exact ⟨hc, rfl⟩
  | ok p =>
      rw [hread] at hrun
      exact hrun

/-- A token that is found stands at the cursor. -/
theorem found {token : List Char} (hr : From text c r fun _ _ => TokenAt text c.offset token) :
    From text c (found r) (Sees text c token) := by
  refine hr.optional.bind fun o c' h => result ?_
  cases o with
  | some x => exact h
  | none => exact h

theorem missing {label : Label} : From text c (missing label : Reading α) P :=
  fun hc => hc

theorem refuse {place : Cursor} {label : Label} (hplace : place.On text) :
    From text c (refuse place label : Reading α) P :=
  fun _ => hplace

/-- A bounded reader starts where it would with any bound. -/
theorem bounded {r : Nat → Reading α} (hr : ∀ n, From text c (r n) P) : From text c (bounded r) P :=
  hr _

end From

namespace Gives

variable {r : Reading α} {P : α → Prop}

theorem required {label : Label} (hr : Gives text r P) : Gives text (required label r) P :=
  fun c => (hr c).required

theorem wanting {t : String} (hr : Gives text r P) : Gives text (wanting t r) P :=
  fun c => (hr c).wanting

theorem found (hr : Gives text r P) : Stays text (found r) :=
  fun c => (hr c).optional.bind fun _ _ _ => .result trivial

end Gives

-- ==================================================== fixed tokens

/-- A token stands behind the blanks where it is read. -/
theorem token_from (t : String) :
    From text c (token t) fun _ _ => StandsAt text c.skip.offset t.toList := by
  intro hc
  unfold token
  dsimp only
  split
  · rename_i rest hafter
    have hrest := after?_eq_some hafter
    exact ⟨hc.skip.advance hrest, hc.skip.standsAt ⟨rest, hrest.symm⟩⟩
  · exact hc.skip

/-- A keyword stands behind the blanks where it is read. -/
theorem keyword_from (w : String) :
    From text c (keyword w) fun _ _ => StandsAt text c.skip.offset w.toList := by
  intro hc
  unfold keyword
  dsimp only
  split
  · rename_i rest hafter
    have hrest := after?_eq_some hafter
    split
    · exact hc.skip
    · exact ⟨hc.skip.advance hrest, hc.skip.standsAt ⟨rest, hrest.symm⟩⟩
  · exact hc.skip

theorem token_stays (t : String) : Stays text (token t) :=
  fun _ => (token_from t).mono fun _ _ _ => trivial

theorem keyword_stays (w : String) : Stays text (keyword w) :=
  fun _ => (keyword_from w).mono fun _ _ _ => trivial

theorem close_stays (t : String) : Stays text (close t) :=
  (token_stays t).required

theorem expect_stays (t : String) : Stays text (expect t) :=
  (token_stays t).wanting

theorem comma_stays : Stays text comma :=
  token_stays ","

/-- Looking for a fixed token where a token begins. -/
theorem found_token (hs : c.skip = c) (t : String) (ht : t.toList ≠ []) :
    From text c (found (token t)) (Sees text c t.toList) := by
  refine .found ((token_from t).mono fun _ _ hstands => ⟨ht, ?_⟩)
  rwa [hs] at hstands

/-- Looking for a word where a token begins. -/
theorem found_keyword (hs : c.skip = c) (w : String) (hw : w.toList ≠ []) :
    From text c (found (keyword w)) (Sees text c w.toList) := by
  refine .found ((keyword_from w).mono fun _ _ hstands => ⟨hw, ?_⟩)
  rwa [hs] at hstands

-- ===================================== names, numbers and operators

/-- A word of one-byte characters has as many bytes as characters. -/
theorem byteLength_eq_length {word : List Char} (h : ∀ c ∈ word, c.utf8Size = 1) :
    Text.byteLength word = word.length := by
  induction word with
  | nil => rfl
  | cons c word ih =>
      obtain ⟨hc, hword⟩ := List.forall_mem_cons.mp h
      rw [Text.byteLength_cons, hc, ih hword, List.length_cons, Nat.add_comm]

/-- No character below one of one byte takes more. -/
theorem utf8Size_of_le {c high : Char} (hhigh : high.utf8Size = 1) (hc : c.val ≤ high.val) :
    c.utf8Size = 1 :=
  Char.utf8Size_eq_one_iff.mpr (UInt32.le_trans hc (Char.utf8Size_eq_one_iff.mp hhigh))

theorem utf8Size_of_isDigit {c : Char} (hc : c.isDigit = true) : c.utf8Size = 1 := by
  have hnine : c.val ≤ '9'.val := of_decide_eq_true (Bool.and_eq_true_iff.mp hc).2
  exact utf8Size_of_le rfl hnine

theorem utf8Size_of_isNameChar {c : Char} (hc : isNameChar c = true) : c.utf8Size = 1 := by
  obtain hword | hunderscore := Bool.or_eq_true_iff.mp hc
  · obtain hletter | hdigit := Bool.or_eq_true_iff.mp hword
    · obtain hupper | hlower := Bool.or_eq_true_iff.mp hletter
      · have hz : c.val ≤ 'Z'.val := (of_decide_eq_true hupper).2
        exact utf8Size_of_le rfl hz
      · have hz : c.val ≤ 'z'.val := of_decide_eq_true (Bool.and_eq_true_iff.mp hlower).2
        exact utf8Size_of_le rfl hz
    · exact utf8Size_of_isDigit hdigit
  · cases eq_of_beq hunderscore
    rfl

/-- A name has as many bytes as characters. -/
theorem byteLength_leadingName (rest : List Char) :
    Text.byteLength (leadingName rest) = (leadingName rest).length := by
  refine byteLength_eq_length fun c hc => ?_
  unfold leadingName at hc
  split at hc
  · exact utf8Size_of_isNameChar (List.all_eq_true.mp List.all_takeWhile c hc)
  · exact absurd hc List.not_mem_nil

/-- A number has as many bytes as characters. -/
theorem byteLength_leadingNumber (rest : List Char) :
    Text.byteLength (leadingNumber rest) = (leadingNumber rest).length := by
  have hdigits (digits : List Char) : ∀ c ∈ digits.takeWhile Char.isDigit, c.utf8Size = 1 :=
    fun c hc => utf8Size_of_isDigit (List.all_eq_true.mp List.all_takeWhile c hc)
  refine byteLength_eq_length ?_
  unfold leadingNumber
  dsimp only
  split
  · split
    · exact hdigits _
    · exact List.forall_mem_append.mpr ⟨hdigits _, List.forall_mem_cons.mpr ⟨rfl, hdigits _⟩⟩
  · exact hdigits _

/-- A name stands at the cursor where it begins. -/
theorem ident_from (hs : c.skip = c) :
    From text c ident fun x _ => TokenAt text c.offset x.toList := by
  intro hc
  unfold ident
  dsimp only
  rw [hs]
  split
  · exact hc
  · rename_i hword
    rw [Bool.or_eq_true, not_or, List.isEmpty_iff] at hword
    have hfront := leadingName_isPrefix c.rest
    have htoken : TokenAt text c.offset (String.ofList (leadingName c.rest)).toList := by
      rw [String.toList_ofList]
      exact ⟨hword.1, hc.standsAt hfront⟩
    exact ⟨hc.advance_drop hfront (byteLength_leadingName _), htoken⟩

/-- A name stands where it is read. -/
theorem name_from (hs : c.skip = c) :
    From text c name fun x _ => TokenAt text c.offset x.toList :=
  (ident_from hs).required

/-- A reader that begins with its token does what it does there. -/
theorem From.ofSkip {r : Reading α} {P : α → Cursor → Prop} (hr : r c = r c.skip)
    (h : From text c.skip r P) : From text c r P := by
  intro hc
  rw [hr]
  exact h hc.skip

theorem ident_stays : Stays text ident := by
  refine fun c => .ofSkip ?_ ((ident_from c.skip_skip).mono fun _ _ _ => trivial)
  unfold ident
  dsimp only
  rw [c.skip_skip]

theorem name_stays : Stays text name :=
  ident_stays.required

theorem number_stays : Stays text number := by
  intro c hc
  unfold number
  dsimp only
  split
  · exact hc.skip
  · split
    · exact ⟨hc.skip.advance_drop (leadingNumber_isPrefix _) (byteLength_leadingNumber _), trivial⟩
    · exact hc.skip

/-- What begins as an operator is one of the infix operators. -/
theorem isInfix_of_leadingOperator? {rest : List Char} {op : String}
    (h : leadingOperator? rest = some op) : isInfix op = true := by
  unfold leadingOperator? at h
  unfold isInfix
  rw [Bool.or_eq_true]
  split at h
  · cases h
  · split at h
    · cases h
      exact .inl (List.contains_iff_mem.mpr (leadingSign?_eq_some ‹_›).1)
    · dsimp only at h
      split at h
      · cases h
        exact .inr ‹_›
      · cases h

/-- An operator is at least one character, each of one byte. -/
theorem bytes_of_isInfix {op : String} (hop : isInfix op = true) :
    op.toList ≠ [] ∧ Text.byteLength op.toList = op.toList.length := by
  have hsigns : ∀ op ∈ signOperators,
      op.toList ≠ [] ∧ Text.byteLength op.toList = op.toList.length := by decide
  have hwords : ∀ op ∈ wordOperators,
      op.toList ≠ [] ∧ Text.byteLength op.toList = op.toList.length := by decide
  rw [isInfix, Bool.or_eq_true, List.contains_iff_mem, List.contains_iff_mem] at hop
  rcases hop with hsign | hword
  · exact hsigns op hsign
  · exact hwords op hword

/-- An infix operator stands at the cursor where it begins. -/
theorem infixOperator_from (hs : c.skip = c) :
    From text c infixOperator fun op _ => isInfix op = true ∧ TokenAt text c.offset op.toList := by
  intro hc
  unfold infixOperator
  dsimp only
  rw [hs]
  split
  · rename_i op hop
    have hfront := (leadingOperator?_eq_some hop).1
    have hinfix := isInfix_of_leadingOperator? hop
    obtain ⟨hnonempty, hbytes⟩ := bytes_of_isInfix hinfix
    exact ⟨hc.advance_drop hfront hbytes, hinfix, hnonempty, hc.standsAt hfront⟩
  · exact hc

/-- An operator leaves the cursor on the text. -/
theorem infixOperator_stays : Stays text infixOperator := by
  refine fun c => .ofSkip ?_ ((infixOperator_from c.skip_skip).mono fun _ _ _ => trivial)
  unfold infixOperator
  dsimp only
  rw [c.skip_skip]

-- ================================================== texts and times

/-- The bytes counted for a text are those of the stretch it takes. -/
theorem quotedRest_eq_some {rest s left : List Char} {k : Nat}
    (h : quotedRest rest = some (s, k, left)) :
    ∃ taken, rest = taken ++ left ∧ Text.byteLength taken = k := by
  have hquote : '\''.utf8Size = 1 := rfl
  fun_induction quotedRest rest generalizing s k with
  | case1 => cases h
  | case2 tail ih =>
      obtain ⟨⟨s', k', left'⟩, hquoted, heq⟩ := Option.map_eq_some_iff.mp h
      cases heq
      obtain ⟨taken, rfl, rfl⟩ := ih hquoted
      refine ⟨'\'' :: '\'' :: taken, rfl, ?_⟩
      rw [Text.byteLength_cons, Text.byteLength_cons]
      omega
  | case3 c tail hdouble hc =>
      cases h
      cases eq_of_beq hc
      exact ⟨['\''], rfl, rfl⟩
  | case4 c tail hdouble hc ih =>
      obtain ⟨⟨s', k', left'⟩, hquoted, heq⟩ := Option.map_eq_some_iff.mp h
      cases heq
      obtain ⟨taken, rfl, rfl⟩ := ih hquoted
      exact ⟨c :: taken, rfl, by rw [Text.byteLength_cons, Nat.add_comm]⟩

/-- A text leaves the cursor on the text, past its closing quote. -/
theorem quoted_stays : Stays text quoted := by
  intro c hc
  unfold quoted
  dsimp only
  split
  · rename_i rest hopen
    split
    · rename_i s k left hquoted
      obtain ⟨taken, rfl, rfl⟩ := quotedRest_eq_some hquoted
      have hrest : c.skip.rest = ('\'' :: taken) ++ left := hopen
      have hadvance := hc.skip.advance hrest
      rw [Text.byteLength_cons, Nat.add_comm] at hadvance
      exact ⟨hadvance, trivial⟩
    · exact hc.skip
  · exact hc.skip

/-- A time is refused unless its text reads as a moment. -/
theorem time_gives :
    Gives text time fun moment => ∃ quotation, Moment.read? quotation = some moment := by
  have hget (c : Cursor) : From text c (get : Reading Cursor) fun start _ => start.On text :=
    fun hc => ⟨hc, hc⟩
  refine fun c => .mark_bind ((hget c.skip).bind fun start _ hstart => ?_)
  refine (token_stays "t" _).bind fun _ _ _ => (quoted_stays _).bind fun quotation _ _ => ?_
  cases hread : Moment.read? quotation with
  | none => exact .refuse hstart
  | some moment => exact .result ⟨quotation, hread⟩

-- =========================================================== lists

section Lists

variable {separator : Reading Unit} {item : Reading α} {P : α → Prop}

/-- The rest of a list gives items that each have the property. -/
theorem separatedRest_gives (hseparator : Stays text separator) (hitem : Gives text item P)
    (n : Nat) : Gives text (separatedRest separator item n) fun xs => ∀ x ∈ xs, P x := by
  induction n with
  | zero => exact fun _ => .result (List.forall_mem_nil _)
  | succ n ih =>
      refine fun c => ((hseparator c).bind fun _ _ _ => hitem _).optional.bind fun o c' ho => ?_
      cases o with
      | none => exact .result (List.forall_mem_nil _)
      | some x => exact (ih c').bind fun xs _ hxs => .result (List.forall_mem_cons.mpr ⟨ho, hxs⟩)

/-- A list of at least one item gives items that each have the property. -/
theorem separated1_gives (hseparator : Stays text separator) (hitem : Gives text item P) :
    Gives text (separated1 separator item) fun xs => ∀ x ∈ xs, P x := by
  intro c
  refine (hitem c).bind fun x c' hx => ?_
  have hrest : From text c' (bounded (separatedRest separator item)) fun xs _ => ∀ x ∈ xs, P x :=
    .bounded fun n => separatedRest_gives hseparator hitem n c'
  exact hrest.bind fun xs _ hxs => .result (List.forall_mem_cons.mpr ⟨hx, hxs⟩)

/-- A list gives items that each have the property. -/
theorem separated_gives (hseparator : Stays text separator) (hitem : Gives text item P) :
    Gives text (separated separator item) fun xs => ∀ x ∈ xs, P x := by
  refine fun c => (hitem c).optional.bind fun o c' ho => ?_
  cases o with
  | none => exact .result (List.forall_mem_nil _)
  | some x =>
      exact (From.bounded fun n => separatedRest_gives hseparator hitem n _).bind
        fun xs _ hxs => .result (List.forall_mem_cons.mpr ⟨ho, hxs⟩)

end Lists

end Reading

end RelQuery
