/-
Readers on a text whose tokens stand apart.

`Before c ts` says that the tokens `ts`, one space between them, are
what is left at the cursor. `Reads r a b P` is the triple over it: before
the tokens `a` the reader succeeds with a result of which `P` holds, and
stands before `b`. `Misses r a` says that it fails there so that another
alternative is tried. Which alternative a reader goes on with is decided
by the first token that is left, most of the time by its first
character.

A token that begins like a name is one word and nothing else (`isToken`),
which is why a keyword is found before itself only.
-/
import RelQuery.Proofs.Grammar.Token

namespace RelQuery

open Text Reading

-- ============================================================ tokens

/-- A token as it may stand in a text: it does not begin with a blank or
a comment, and if it begins like a name it is a word. -/
def isToken (t : String) : Bool :=
  match t.toList with
  | [] => false
  | c :: w => !isBlank c && (c != '-' || w.isEmpty) && (!isNameStart c || w.all isNameChar)

/-- A token begins with no blank; it is a dash or begins with none, and a
word goes to its end. -/
theorem isToken_cases {t : String} (h : isToken t = true) : ∃ c w, t.toList = c :: w ∧
    isBlank c = false ∧ (c = '-' → w = []) ∧ (isNameStart c = true → w.all isNameChar = true) := by
  unfold isToken at h
  split at h
  · cases h
  · rename_i c w htoList
    simp only [Bool.and_eq_true, Bool.not_eq_true', Bool.or_eq_true, bne_iff_ne, ne_eq,
      List.isEmpty_iff] at h
    obtain ⟨⟨hblank, hdash⟩, hname⟩ := h
    refine ⟨c, w, htoList, hblank, fun hc => ?_, fun hc => ?_⟩
    · exact hdash.resolve_left (absurd hc)
    · exact hname.resolve_left (by simp [hc])

/-- What follows a token in a text. -/
def following : List String → List Char
  | [] => []
  | ts => ' ' :: spaced ts

/-- Tokens begin with the first of them. -/
theorem spaced_cons (t : String) (ts : List String) :
    spaced (t :: ts) = t.toList ++ following ts := by
  cases ts with
  | nil => exact (List.append_nil _).symm
  | cons u ts => rfl

/-- The first character of the first token. -/
def first? (ts : List String) : Option Char :=
  ts.head?.bind (·.toList.head?)

/-- Behind a token comes a blank or the end. -/
theorem following_cases (ts : List String) :
    following ts = [] ∨ ∃ rest, following ts = ' ' :: rest := by
  cases ts with
  | nil => exact .inl rfl
  | cons t ts => exact .inr ⟨_, rfl⟩

/-- There are at least as many characters as there are separators. -/
theorem length_le_spaced (ts : List String) : ts.length ≤ (spaced ts).length + 1 := by
  induction ts with
  | nil => exact Nat.zero_le _
  | cons t ts ih =>
      rw [spaced_cons, List.length_append]
      cases ts with
      | nil => exact Nat.le_add_left _ _
      | cons u ts =>
          simp only [following, List.length_cons] at ih ⊢
          omega

/-- The tokens are what is left at the cursor. -/
structure Before (c : Cursor) (ts : List String) : Prop where
  rest : c.rest = spaced ts ∨ c.rest = ' ' :: spaced ts
  tokens : ∀ t ∈ ts, isToken t = true

namespace Before

variable {c : Cursor} {t : String} {ts : List String}

/-- What follows a token stands before the cursor that has read it. -/
theorem of_following (h : c.rest = following ts) (htokens : ∀ t ∈ ts, isToken t = true) :
    Before c ts := by
  refine ⟨?_, htokens⟩
  cases ts with
  | nil => exact .inl h
  | cons t ts => exact .inr h

theorem tail (h : Before c (t :: ts)) : ∀ u ∈ ts, isToken u = true :=
  fun u hu => h.tokens u (List.mem_cons_of_mem _ hu)

/-- There are no more tokens than there are characters left. -/
theorem length_le (h : Before c ts) : ts.length ≤ c.rest.length + 1 := by
  have hle := length_le_spaced ts
  rcases h.rest with hrest | hrest
  · rw [hrest]
    exact hle
  · rw [hrest, List.length_cons]
    omega

/-- Blanks end where the next token begins. -/
theorem skip_rest (h : Before c ts) : c.skip.rest = spaced ts := by
  -- at a token the skipping stops: it begins with no blank, and a single dash is
  -- no comment
  have hstop (offset : Nat) : (Cursor.skipFrom false offset (spaced ts)).rest = spaced ts := by
    cases ts with
    | nil => rfl
    | cons t ts =>
        obtain ⟨d, w, ht, hblank, hdash, -⟩ := isToken_cases (h.tokens t List.mem_cons_self)
        rw [spaced_cons, ht, List.cons_append]
        unfold Cursor.skipFrom
        rw [if_neg (by decide), if_neg (by simp [hblank])]
        split
        · rename_i rest hd heq
          rw [hdash rfl] at heq
          rcases following_cases ts with hnil | ⟨rest, hcons⟩
          · rw [hnil] at heq
            cases heq
          · rw [hcons] at heq
            cases heq
        · rfl
  unfold Cursor.skip
  rcases h.rest with hrest | hrest
  · rw [hrest]
    exact hstop _
  · rw [hrest]
    exact hstop _

theorem skip (h : Before c ts) : Before c.skip ts :=
  ⟨.inl h.skip_rest, h.tokens⟩

/-- The first character that is seen is that of the first token. -/
theorem head?_skip (h : Before c ts) : c.skip.rest.head? = first? ts := by
  rw [h.skip_rest]
  cases ts with
  | nil => rfl
  | cons t ts =>
      obtain ⟨d, w, ht, -⟩ := isToken_cases (h.tokens t List.mem_cons_self)
      rw [spaced_cons, ht]
      simp [first?, ht]

end Before

-- =========================================================== triples

namespace Reading

/-- Cursors before a list of tokens are positions, with the tokens left to
read. -/
theorem before_position : Position Before where
  skip := Before.skip
  length_le := Before.length_le

/-- Before the tokens `a` the reader succeeds, and stands before `b`. -/
abbrev Reads {α : Type} (r : Reading α) (a b : List String) (P : α → Prop) : Prop :=
  ReadsAt Before r a b P

/-- Before the tokens `a` the reader misses, and an alternative may be
tried. -/
abbrev Misses {α : Type} (r : Reading α) (a : List String) : Prop :=
  MissesAt Before r a

variable {α : Type}

/-- It is enough to take the first token. -/
theorem Reads.ofToken {r : Reading α} {t : String} {ts : List String} {P : α → Prop}
    (h : Takes r (t.toList ++ following ts) (following ts) P) : Reads r (t :: ts) ts P := by
  intro c hc
  have hface : Faces c (t.toList ++ following ts) := by
    rw [Faces, hc.skip_rest, spaced_cons]
  obtain ⟨x, n, hrun, hx⟩ := h c hface
  exact ⟨x, _, hrun, hx, Before.of_following rfl hc.tail⟩

/-- Before tokens the reader stands before their text. -/
theorem Misses.ofText {r : Reading α} {ts : List String} (h : Declines r (spaced ts)) :
    Misses r ts :=
  fun c hc => h c hc.skip_rest

theorem mark_reads (a : List String) : Reads mark a a fun _ => True :=
  before_position.mark a

theorem ahead_reads (a : List String) : Reads ahead a a (· = spaced a) :=
  before_position.ahead fun _ hc => hc.skip_rest

theorem ahead_reads_head (a : List String) : Reads ahead a a (·.head? = first? a) :=
  before_position.ahead fun _ hc => hc.head?_skip

-- ====================================================== fixed tokens

theorem token_reads (t : String) (ts : List String) :
    Reads (token t) (t :: ts) ts fun _ => True :=
  .ofToken (token_takes t (following ts))

/-- A token is told from what is left by its first character. -/
theorem token_misses {t : String} {ts : List String} {d : Char} (ht : t.toList.head? = some d)
    (h : first? ts ≠ some d) : Misses (token t) ts := by
  intro c hc
  rw [← hc.head?_skip] at h
  exact token_declines (after?_eq_none ht h) c rfl

theorem close_reads (t : String) (ts : List String) : Reads (close t) (t :: ts) ts fun _ => True :=
  (token_reads t ts).required

theorem expect_reads (t : String) (ts : List String) :
    Reads (expect t) (t :: ts) ts fun _ => True :=
  (token_reads t ts).wanting

-- ============================================================== words

/-- Behind a token the next character is no part of a name. -/
theorem following_head (ts : List String) : (following ts).head?.any isNameChar = false := by
  rcases following_cases ts with h | ⟨rest, h⟩
  · rw [h]
    rfl
  · rw [h]
    rfl

/-- A keyword that is next is read, for it goes to the blank behind it. -/
theorem keyword_reads (w : String) (ts : List String) :
    Reads (keyword w) (w :: ts) ts fun _ => True :=
  .ofToken (keyword_takes w (following_head ts))

/-- A token that is longer than a word it begins with goes on with a name
character. -/
theorem isToken_word {t w : String} {v : List Char} (ht : isToken t = true) (hw : isWord w = true)
    (h : t.toList = w.toList ++ v) : v.all isNameChar = true := by
  obtain ⟨c, u, hwc, hstart, -⟩ := isWord_cases hw
  obtain ⟨d, x, htd, -, -, hname⟩ := isToken_cases ht
  rw [h, hwc, List.cons_append, List.cons.injEq] at htd
  obtain ⟨rfl, rfl⟩ := htd
  have hall := hname hstart
  rw [List.all_append, Bool.and_eq_true] at hall
  exact hall.2

/-- Another token is no keyword: a word that goes on is not that word. -/
theorem keyword_misses {w : String} (hw : isWord w = true) {ts : List String}
    (h : ts.head? ≠ some w) : Misses (keyword w) ts := by
  intro c hc
  refine ⟨{ cut := false, place := c.skip }, ?_, rfl⟩
  unfold keyword
  dsimp only
  split
  -- the word may begin the next token, but then that goes on with a character of
  -- a name
  · rename_i rest hafter
    have hgoes : rest.head?.any isNameChar = true := by
      have happend := after?_eq_some hafter
      rw [hc.skip_rest] at happend
      obtain ⟨d, v, hwd, -, hall⟩ := isWord_cases hw
      cases ts with
      | nil =>
          rw [hwd] at happend
          cases happend
      | cons t ts =>
          rw [spaced_cons] at happend
          have htoken := hc.tokens t List.mem_cons_self
          rcases List.append_eq_append_iff.mp happend with ⟨u, hu, hrest⟩ | ⟨u, hu, hrest⟩
          · -- the word does not go on past its token
            cases u with
            | nil =>
                rw [List.append_nil] at hu
                exact absurd (congrArg some (String.toList_inj.mp hu.symm)) h
            | cons x u =>
                have hhead := following_head ts
                rw [hrest] at hhead
                rw [← hwd, hu, List.all_append, Bool.and_eq_true, List.all_cons,
                  Bool.and_eq_true] at hall
                exact absurd hall.2.1 (by simpa using hhead)
          -- the token goes on past the word
          · cases u with
            | nil =>
                rw [List.append_nil] at hu
                exact absurd (congrArg some (String.toList_inj.mp hu)) h
            | cons x u =>
                have hname := isToken_word htoken hw hu
                rw [List.all_cons, Bool.and_eq_true] at hname
                rw [hrest]
                exact hname.1
    rw [if_pos hgoes]
  · rfl

-- ============================================================== names

/-- The word in front of a text is its first token. -/
theorem leadingName_word {w : String} (hw : isWord w = true) (ts : List String) :
    leadingName (w.toList ++ following ts) = w.toList :=
  leadingName_append hw (following_head ts)

theorem ident_reads {x : String} (hx : isName x = true) (ts : List String) :
    Reads ident (x :: ts) ts (· = x) :=
  .ofToken (ident_takes hx (following_head ts))

theorem name_reads {x : String} (hx : isName x = true) (ts : List String) :
    Reads name (x :: ts) ts (· = x) :=
  (ident_reads hx ts).required

/-- What is no name is not read as one. -/
theorem ident_misses {ts : List String} (h : ∀ t ∈ ts.head?, isName t = false) :
    Misses ident ts := by
  intro c hc
  refine ⟨{ cut := false, place := c.skip }, ?_, rfl⟩
  unfold ident
  dsimp only
  rw [hc.skip_rest]
  cases ts with
  | nil => rfl
  | cons t ts =>
      rw [spaced_cons]
      -- nothing can be read of nothing; otherwise the word in front decides
      split
      · rfl
      · -- a word that is not reserved is a name
        rename_i hnone
        rw [Bool.or_eq_true, not_or, Bool.not_eq_true, Bool.not_eq_true] at hnone
        obtain ⟨d, w, htd, -, -, hall⟩ := isToken_cases (hc.tokens t List.mem_cons_self)
        have hword : isWord t = true := by
          cases hstart : isNameStart d with
          | true =>
              have hchar : isNameChar d = true := by rw [isNameChar_eq, hstart, Bool.true_or]
              rw [isWord, htd, List.head?_cons, Option.any_some, List.all_cons, hstart, hchar,
                hall hstart]
              rfl
          | false =>
              rw [leadingName_noWord (by simp [htd, hstart])] at hnone
              cases hnone.1
        rw [leadingName_word hword, String.ofList_toList] at hnone
        have hname := h t rfl
        rw [isName, hword, hnone.2] at hname
        cases hname

-- ========================================================== operators

theorem mem_of_isInfix {op : String} (hop : isInfix op = true) :
    op ∈ signOperators ++ wordOperators := by
  simpa [isInfix] using hop

/-- An operator that is next is found as it is, not as the beginning of a
longer one. -/
theorem leadingOperator?_isInfix {op : String} (hop : isInfix op = true) (ts : List String) :
    leadingOperator? (op.toList ++ following ts) = some op := by
  have hcases := mem_of_isInfix hop
  rcases following_cases ts with h | ⟨rest, h⟩
  · rw [h, List.append_nil]
    have hall : ∀ op ∈ signOperators ++ wordOperators, leadingOperator? op.toList = some op := by
      decide
    exact hall op hcases
  · rw [h]
    simp only [signOperators, wordOperators, List.cons_append, List.nil_append, List.mem_cons,
      List.not_mem_nil, or_false] at hcases
    rcases hcases with rfl | rfl | rfl | rfl | rfl | rfl | rfl | rfl | rfl | rfl | rfl | rfl | rfl |
      rfl | rfl | rfl | rfl | rfl | rfl | rfl | rfl | rfl | rfl | rfl | rfl | rfl
    all_goals rfl

/-- An operator that is next is read. -/
theorem infixOperator_reads {op : String} (hop : isInfix op = true) (ts : List String) :
    Reads infixOperator (op :: ts) ts (· = op) := by
  refine .ofToken fun c hrest => ⟨op, op.length, ?_, rfl⟩
  unfold infixOperator
  dsimp only
  rw [hrest, leadingOperator?_isInfix hop]
  dsimp only
  rw [← String.length_toList, List.drop_left]

-- ====================================== what ends an expression

/-- Tokens that no expression takes. -/
def closers : List String := [")", ",", ";", "\x7d"]

/-- An expression ends before these tokens. -/
def Ends (ts : List String) : Prop :=
  ∀ t ∈ ts.head?, t ∈ closers

/-- An operand ends before these tokens. -/
def EndsOperand (ts : List String) : Prop :=
  ∀ t ∈ ts.head?, t ∈ closers ++ (signOperators ++ wordOperators)

/-- A primary ends before these tokens. -/
def EndsBase (ts : List String) : Prop :=
  ∀ t ∈ ts.head?, t ∈ "." :: closers ++ (signOperators ++ wordOperators)

theorem Ends.operand {ts : List String} (h : Ends ts) : EndsOperand ts :=
  fun t ht => List.mem_append_left _ (h t ht)

theorem EndsOperand.base {ts : List String} (h : EndsOperand ts) : EndsBase ts :=
  fun t ht => List.mem_cons_of_mem _ (h t ht)

theorem ends_nil : Ends [] := fun _ h => by cases h

theorem ends_cons {t : String} (ht : t ∈ closers) (ts : List String) : Ends (t :: ts) := by
  rintro u ⟨⟩
  exact ht

theorem endsOperand_infix {op : String} (hop : isInfix op = true) (ts : List String) :
    EndsOperand (op :: ts) := by
  rintro u ⟨⟩
  exact List.mem_append_right _ (mem_of_isInfix hop)

theorem endsBase_point (ts : List String) : EndsBase ("." :: ts) := by
  rintro u ⟨⟩
  exact List.mem_cons_self

/-- The first character of a token on a list begins one of the list. -/
theorem first?_ne {ts us : List String} (h : ∀ t ∈ ts.head?, t ∈ us) {d : Char}
    (hd : ∀ u ∈ us, u.toList.head? ≠ some d) : first? ts ≠ some d := by
  cases ts with
  | nil => simp [first?]
  | cons t ts => exact hd t (h t rfl)

theorem EndsBase.noCall {ts : List String} (h : EndsBase ts) : first? ts ≠ some '(' :=
  first?_ne h (by decide)

theorem EndsBase.noColon {ts : List String} (h : EndsBase ts) : first? ts ≠ some ':' :=
  first?_ne h (by decide)

theorem EndsOperand.noPoint {ts : List String} (h : EndsOperand ts) : first? ts ≠ some '.' :=
  first?_ne h (by decide)

/-- What ends an expression is no operator. -/
theorem infixOperator_misses {ts : List String} (h : Ends ts) : Misses infixOperator ts := by
  refine .ofText (infixOperator_declines ?_)
  cases ts with
  | nil => rfl
  | cons t ts =>
      have ht := h t rfl
      rw [spaced_cons]
      simp only [closers, List.mem_cons, List.not_mem_nil, or_false] at ht
      rcases ht with rfl | rfl | rfl | rfl
      all_goals rfl

-- ============================================================== texts

/-- A quoted text that is next is read, with its quotes undone. -/
theorem quoted_reads (s : String) (ts : List String) :
    Reads quoted (Value.quote s :: ts) ts (· = s.toList) := by
  refine .ofToken (quoted_takes s ?_)
  rcases following_cases ts with h | ⟨rest, h⟩
  · simp [h]
  · simp [h]

-- ============================================================ numbers

/-- A number that is next is read as it was written. -/
theorem number_reads {d : Decimal} (hd : d.negative = false) (ts : List String) :
    Reads number (d.write :: ts) ts (· = d) := by
  refine .ofToken (number_takes hd fun c hc => ?_)
  rcases following_cases ts with h | ⟨rest, h⟩
  · rw [h] at hc
    cases hc
  · rw [h] at hc
    cases hc
    exact ⟨rfl, by decide⟩

end Reading

end RelQuery
