/-
A row of instructions needs no separators.

A reader that succeeded has taken some bytes of its own. They alone
decide: with anything else after them the reader gives the same, and
when some of them are missing it reports that, and nothing else
(`Owns`). The second half is why no cut is misread. Every operand is
taken before it is looked at, so a reader follows the same way up to
the missing byte; a segment is taken whole before its code is decoded.

`Delimits` says so of a reader, and holds of every reader here, one
lemma each. The bound on nesting is all that depends on the bytes left
over; `Agrees` has settled that any sufficient one will do.

A buffer that decodes is then a row of instructions with their own
bytes (`Row`), from which the laws of appending and of cutting follow
by induction on the row.
-/
import RelQuery.Proofs.Code.Canonical
import RelQuery.Proofs.Node.Lowering

namespace RelQuery

namespace ByteReader

variable {α β : Type}

-- ====================================================== own bytes

/-- The reader reports that bytes are missing. -/
def Truncates (r : ByteReader α) (input : ByteInput) : Prop :=
  ∃ place needed, r input = .error (.truncated place needed)

/-- The bytes are the reader's own: whatever follows, it gives the
value and takes just them; without some of them it reports that bytes
are missing. -/
structure Owns (r : ByteReader α) (offset : Nat) (own : List UInt8) (a : α) : Prop where
  whole : ∀ rest, r ⟨offset, own ++ rest⟩ = .ok (a, ⟨offset + own.length, rest⟩)
  cut : ∀ n, n < own.length → Truncates r ⟨offset, own.take n⟩

/-- A reader that succeeds has taken bytes of its own. -/
def Delimits (r : ByteReader α) : Prop :=
  ∀ (offset : Nat) (bytes : List UInt8) (a : α) (next : ByteInput),
    r ⟨offset, bytes⟩ = .ok (a, next) →
      ∃ own rest, bytes = own ++ rest ∧ Owns r offset own a

/-- A reader that has its own bytes can give nothing else on them. -/
theorem Owns.eq {r : ByteReader α} {offset : Nat} {own rest : List UInt8} {a b : α}
    {next : ByteInput} (h : Owns r offset own a) (hok : r ⟨offset, own ++ rest⟩ = .ok (b, next)) :
    b = a ∧ next = ⟨offset + own.length, rest⟩ := by
  rw [h.whole rest] at hok
  cases hok
  exact ⟨rfl, rfl⟩

/-- A reader has the same own bytes wherever it gives the same. -/
theorem Owns.unique {r s : ByteReader α} {offset : Nat} {own rest xs ys : List UInt8} {a b : α}
    {next : ByteInput} (h : Owns r offset own a) (hok : r ⟨offset, own ++ rest⟩ = .ok (b, next))
    (h' : Owns s offset xs b) (hsame : s ⟨offset, xs ++ ys⟩ = .ok (b, next))
    (hbytes : own ++ rest = xs ++ ys) : xs = own ∧ ys = rest := by
  obtain ⟨-, rfl⟩ := h.eq hok
  obtain ⟨-, hnext⟩ := h'.eq hsame
  obtain rfl : rest = ys := congrArg ByteInput.rest hnext
  exact ⟨(List.append_cancel_right hbytes).symm, rfl⟩

/-- Where the first reader runs out of bytes, so does the whole. -/
theorem Truncates.bind {r : ByteReader α} {input : ByteInput} (h : Truncates r input)
    (f : α → ByteReader β) : Truncates (r >>= f) input := by
  obtain ⟨place, needed, h⟩ := h
  refine ⟨place, needed, ?_⟩
  rw [bind_apply, h]
  rfl

/-- An outcome that is not moved is itself. -/
theorem movedOutcome_zero (o : Except DecodeError (α × ByteInput)) : movedOutcome 0 o = o := by
  cases o with
  | ok p => rfl
  | error e => cases e <;> rfl

/-- Fewer bytes than asked for are not split. -/
theorem split?_eq_none {n : Nat} {xs : List α} (h : xs.length < n) : split? n xs = none := by
  induction n generalizing xs with
  | zero => exact absurd h (Nat.not_lt_zero _)
  | succ n ih =>
      cases xs with
      | nil => rfl
      | cons x xs =>
          rw [split?, ih (Nat.lt_of_succ_lt_succ h)]
          rfl

namespace Delimits

theorem pure (a : α) : Delimits (Pure.pure a) := by
  intro offset bytes b next h
  cases h
  exact ⟨[], bytes, rfl, fun _ => rfl, fun n hn => absurd hn (Nat.not_lt_zero n)⟩

/-- A reader that fails never succeeds, so there is nothing to show. -/
theorem throw (e : DecodeError) : Delimits (throw e : ByteReader α) := by
  intro offset bytes a next h
  cases h

/-- The bytes of two steps; a cut in the first leaves nothing for the
second. -/
theorem bind {r : ByteReader α} {f : α → ByteReader β} (hr : Delimits r)
    (hf : ∀ a, Delimits (f a)) : Delimits (r >>= f) := by
  intro offset bytes b next hok
  rw [bind_apply] at hok
  cases hs : r ⟨offset, bytes⟩ with
  | error e =>
      rw [hs] at hok
      cases hok
  | ok p =>
      obtain ⟨a, middle⟩ := p
      rw [hs] at hok
      obtain ⟨xs, _, rfl, hxs⟩ := hr offset bytes a middle hs
      obtain ⟨-, rfl⟩ := hxs.eq hs
      obtain ⟨ys, rest, rfl, hys⟩ := hf a _ _ b next hok
      refine ⟨xs ++ ys, rest, (List.append_assoc xs ys rest).symm, ?_, ?_⟩
      · intro rest
        rw [bind_apply, List.append_assoc, hxs.whole, List.length_append, ← Nat.add_assoc]
        exact hys.whole rest
      · intro n hn
        rw [List.length_append] at hn
        by_cases hfirst : n < xs.length
        · rw [List.take_append_of_le_length (Nat.le_of_lt hfirst)]
          exact (hxs.cut n hfirst).bind f
        · obtain ⟨place, needed, hcut⟩ := hys.cut (n - xs.length) (by omega)
          refine ⟨place, needed, ?_⟩
          rw [List.take_append, List.take_of_length_le (Nat.le_of_not_lt hfirst), bind_apply,
            hxs.whole]
          exact hcut

/-- The start of a reader may be kept, since no reader looks back at it. -/
theorem offset_bind {f : Nat → ByteReader α} (h : ∀ start, Delimits (f start)) :
    Delimits (offset >>= f) := by
  intro offset bytes a next hok
  obtain ⟨own, rest, hbytes, hown⟩ := h offset offset bytes a next hok
  exact ⟨own, rest, hbytes, hown.whole, hown.cut⟩

/-- A family of readers in which every bound above the number of bytes
left gives the same. -/
theorem bounded {r : Nat → ByteReader α} (h : ∀ d, Delimits (r d))
    (hagree : ∀ {n d e}, n < d → n < e → Agrees 0 n (r d) (r e)) : Delimits (bounded r) := by
  have hsame (d : Nat) (input : ByteInput) (hd : input.rest.length < d) :
      ByteReader.bounded r input = r d input := by
    have hmoved := (hagree (Nat.lt_succ_self _) hd).same input (Nat.le_refl _)
    rwa [movedOutcome_zero] at hmoved
  intro offset bytes a next hok
  obtain ⟨own, rest, rfl, hown⟩ := h _ offset bytes a next hok
  -- a larger bound takes the same bytes, so that any rest can follow
  have hlarge (d : Nat) (hd : (own ++ rest).length < d) : Owns (r d) offset own a := by
    have hd' : r d ⟨offset, own ++ rest⟩ = .ok (a, next) := by rw [← hsame d _ hd, hok]
    obtain ⟨xs, ys, hbytes, hxs⟩ := h d offset _ a next hd'
    obtain ⟨rfl, rfl⟩ := hown.unique hok hxs (hbytes ▸ hd') hbytes
    exact hxs
  rw [List.length_append] at hlarge
  refine ⟨own, rest, rfl, ?_, ?_⟩
  · intro others
    rw [hsame (own.length + rest.length + others.length + 1) _
      (by simp only [List.length_append]; omega)]
    exact (hlarge _ (by omega)).whole others
  · intro n hn
    obtain ⟨place, needed, hcut⟩ := (hlarge (own.length + rest.length + 1) (by omega)).cut n hn
    refine ⟨place, needed, ?_⟩
    rw [hsame (own.length + rest.length + 1) _ (by simp only [List.length_take]; omega)]
    exact hcut

-- ========================================================= operands

/-- A run of bytes is its own length, and a shorter one is missing bytes. -/
theorem take (n : Nat) : Delimits (take n) := by
  intro offset bytes a next hok
  obtain ⟨xs, rfl, rfl, rfl⟩ := take_gives n ⟨offset, bytes⟩ next a hok
  refine ⟨a, next.rest, rfl, fun rest => take_reads a offset rest, fun n hn => ?_⟩
  refine ⟨offset, a.length, ?_⟩
  rw [ByteReader.take, split?_eq_none (by rw [List.length_take]; omega)]

theorem byte : Delimits byte := by
  refine (take 1).bind fun xs => ?_
  split
  · exact pure _
  · exact offset_bind fun _ => throw _

theorem number (n : Nat) : Delimits (number n) :=
  (take n).bind fun _ => pure _

/-- Text is taken before it is read as text, so a cut is never bad text. -/
theorem utf8 (n : Nat) : Delimits (utf8 n) := by
  refine offset_bind fun start => (take n).bind fun xs => ?_
  split
  · exact pure _
  · exact throw _

theorem name : Delimits name :=
  (number 2).bind fun n => utf8 n

/-- Items that each have their own bytes have them in a row. -/
theorem times {r : ByteReader α} (h : Delimits r) (n : Nat) : Delimits (times r n) := by
  induction n with
  | zero => exact pure []
  | succ n ih => exact h.bind fun a => ih.bind fun rest => pure (a :: rest)

-- ============================================================ types

/-- Columns are a row of names and types; a name given twice is no success. -/
theorem columns {r : ByteReader DataType} (h : Delimits r) (start n : Nat) (done : Heading) :
    Delimits (columns r start n done) := by
  induction n generalizing done with
  | zero => exact pure done
  | succ n ih =>
      refine name.bind fun columnName => h.bind fun columnType => ?_
      split
      · exact ih _
      · exact throw _

theorem headingOf {r : ByteReader DataType} (h : Delimits r) : Delimits (headingOf r) := by
  refine offset_bind fun start => ?_
  exact (number 2).bind fun count => h.columns start count []

/-- Types delimit themselves, by induction on the depth they may have. -/
theorem typeWithin (d : Nat) : Delimits (typeWithin d) := by
  induction d with
  | zero => exact offset_bind fun _ => throw _
  | succ d ih =>
      refine offset_bind fun start => byte.bind fun tag => ?_
      split
      · exact pure _
      · exact pure _
      · exact pure _
      · exact pure _
      · exact pure _
      · exact ih.headingOf.bind fun h => pure _
      · exact ih.headingOf.bind fun h => pure _
      · refine name.bind fun typeName => ih.headingOf.bind fun h => byte.bind fun b => ?_
        split
        · exact pure _
        · exact ih.bind fun parent => pure _
      · exact pure _
      · exact pure _
      · exact throw _

theorem type : Delimits type :=
  bounded typeWithin Agrees.typeWithin

theorem heading : Delimits heading :=
  type.headingOf

-- =========================================================== values

theorem decimal : Delimits decimal :=
  (take 16).bind fun _ => pure _

/-- A moment is eight bytes, taken before they are read as a date. -/
theorem moment : Delimits moment := by
  refine offset_bind fun start => (number 8).bind fun ms => ?_
  split
  · exact pure _
  · exact throw _

/-- Values delimit themselves, by induction on the depth they may have. -/
theorem valueWithin (d : Nat) : Delimits (valueWithin d) := by
  induction d with
  | zero => exact offset_bind fun _ => throw _
  | succ d ih =>
      refine offset_bind fun start => byte.bind fun tag => ?_
      split
      · exact pure _
      · exact byte.bind fun b => pure _
      · exact decimal.bind fun d => pure _
      · refine (number 4).bind fun length => ?_
        exact (utf8 length).bind fun s => pure _
      · refine (number 4).bind fun length => ?_
        exact (take length).bind fun bytes => pure _
      · exact moment.bind fun m => pure _
      · have hfield : Delimits (ByteReader.name >>= fun fieldName =>
            ByteReader.valueWithin d >>= fun v => Pure.pure (fieldName, v)) :=
          name.bind fun fieldName => ih.bind fun v => pure (fieldName, v)
        refine (number 2).bind fun count => ?_
        exact (hfield.times count).bind fun fields => pure _
      · refine heading.bind fun h => (number 4).bind fun count => ?_
        have hrow := ih.times h.length
        exact (hrow.times count).bind fun rows => pure _
      · exact heading.bind fun h => pure _
      · exact throw _

theorem value : Delimits value :=
  bounded valueWithin Agrees.valueWithin

-- ===================================================== instructions

/-- Code is decoded on its own, after its bytes have been taken. -/
theorem nested (r : ByteReader α) (start : Nat) (code : List UInt8) :
    Delimits (nested r start code) := by
  intro offset bytes out next hok
  unfold ByteReader.nested at hok
  cases hs : ByteReader.bounded (allWithin r) ⟨start, code⟩ with
  | error e =>
      rw [hs] at hok
      cases hok
  | ok p =>
      rw [hs] at hok
      cases hok
      refine ⟨[], bytes, rfl, fun rest => ?_, fun n hn => absurd hn (Nat.not_lt_zero n)⟩
      rw [ByteReader.nested, hs]
      rfl

/-- The kind of a segment is one byte. -/
theorem segmentKind : Delimits segmentKind := by
  refine offset_bind fun start => byte.bind fun b => ?_
  split
  · exact pure _
  · exact throw _

/-- A segment is its head and its code, taken whole before it is decoded. -/
theorem segmentOf (r : ByteReader Instruction) : Delimits (segmentOf r) := by
  refine name.bind fun segmentName => segmentKind.bind fun kind => ?_
  refine (number 2).bind fun accums => byte.bind fun flags => ?_
  refine heading.bind fun lookup => ?_
  -- the code, of the length that the head announces
  refine (number 4).bind fun length => offset_bind fun start => ?_
  refine (take length).bind fun code => ?_
  exact (nested r start code).bind fun body => pure _

/-- Instructions delimit themselves, by induction on the depth of segments. -/
theorem instructionWithin (d : Nat) : Delimits (instructionWithin d) := by
  cases d with
  | zero => exact offset_bind fun _ => throw _
  | succ d =>
      refine offset_bind fun start => byte.bind fun b => ?_
      have named (f : String → Instruction) :
          Delimits (ByteReader.name >>= fun n => Pure.pure (f n)) :=
        name.bind fun n => pure _
      split
      · exact throw _
      · exact pure _
      · exact value.bind fun v => pure _
      · exact named _
      · exact named _
      · exact named _
      · exact named _
      · exact named _
      · exact pure _
      · exact pure _
      · exact segmentOf _
      · exact name.bind fun callee => byte.bind fun arity => pure _
      · exact name.bind fun callee => byte.bind fun fixed => byte.bind fun more => pure _
      · exact name.bind fun callee => byte.bind fun fixed => byte.bind fun more => pure _

theorem instruction : Delimits instruction :=
  bounded instructionWithin Agrees.instructionWithin

end Delimits

-- ============================================================= rows

/-- No instruction is empty: there is at least its opcode. -/
theorem Owns.ne_nil {offset : Nat} {own : List UInt8} {i : Instruction}
    (h : Owns instruction offset own i) : own ≠ [] := by
  rintro rfl
  exact nomatch h.whole []

/-- Any two numbers of rounds above the number of bytes left read the
same instructions. -/
theorem allWithin_enough {input : ByteInput} {m n : Nat} (hm : input.rest.length < m)
    (hn : input.rest.length < n) :
    allWithin instruction m input = allWithin instruction n input := by
  induction m generalizing input n with
  | zero => exact absurd hm (Nat.not_lt_zero _)
  | succ m ih =>
      obtain ⟨n, rfl⟩ := Nat.exists_eq_succ_of_ne_zero (Nat.ne_of_gt (Nat.zero_lt_of_lt hn))
      rw [allWithin_succ, allWithin_succ, bind_apply, bind_apply]
      cases hi : instruction input with
      | error e => rfl
      | ok p =>
          obtain ⟨i, next⟩ := p
          obtain ⟨own, rest, hrest, hown⟩ := Delimits.instruction input.offset input.rest i next hi
          have hi' : instruction ⟨input.offset, own ++ rest⟩ = .ok (i, next) := hrest ▸ hi
          obtain ⟨-, rfl⟩ := hown.eq hi'
          have hpos := List.length_pos_iff.mpr hown.ne_nil
          rw [hrest, List.length_append] at hm hn
          have hsame : allWithin instruction m ⟨input.offset + own.length, rest⟩
              = allWithin instruction n ⟨input.offset + own.length, rest⟩ :=
            ih (show rest.length < m by omega) (show rest.length < n by omega)
          show (if _ then _ else _) = _
          simp only [Except.bind, bind_apply, hsame]

/-- A buffer that is not empty is one instruction and the rest of them. -/
theorem instructions_cons (offset : Nat) (b : UInt8) (bytes : List UInt8) :
    instructions ⟨offset, b :: bytes⟩ = (instruction >>= fun i =>
      allWithin instruction (bytes.length + 1) >>= fun is => pure (i :: is)) ⟨offset, b :: bytes⟩ :=
  rfl

/-- The first instruction of a buffer, then the others. -/
theorem Owns.instructions {offset : Nat} {own : List UInt8} {i : Instruction}
    (h : Owns instruction offset own i) (rest : List UInt8) :
    instructions ⟨offset, own ++ rest⟩
      = (instructions ⟨offset + own.length, rest⟩).map fun p => (i :: p.1, p.2) := by
  have hpos := List.length_pos_iff.mpr h.ne_nil
  have hmore : (own ++ rest).isEmpty = false := by simp [h.ne_nil]
  have hrest : allWithin instruction (own ++ rest).length ⟨offset + own.length, rest⟩
      = ByteReader.instructions ⟨offset + own.length, rest⟩ :=
    allWithin_enough (by rw [List.length_append]; show rest.length < _; omega) (Nat.lt_succ_self _)
  show allWithin instruction ((own ++ rest).length + 1) ⟨offset, own ++ rest⟩ = _
  rw [allWithin_succ, hmore, bind_apply, h.whole rest]
  show (allWithin instruction _ >>= _) _ = _
  rw [bind_apply, hrest]
  cases ByteReader.instructions ⟨offset + own.length, rest⟩ with
  | error e => rfl
  | ok p => rfl

/-- Bytes from a given place on hold instructions one after another. -/
inductive Row : Nat → List UInt8 → List Instruction → Prop where
  | nil (offset : Nat) : Row offset [] []
  | cons {offset : Nat} {own rest : List UInt8} {i : Instruction} {is : List Instruction} :
    Owns instruction offset own i → Row (offset + own.length) rest is →
      Row offset (own ++ rest) (i :: is)

/-- What decodes is a row. -/
theorem row_of_instructions {offset : Nat} {bytes : List UInt8} {is : List Instruction}
    {next : ByteInput} (h : instructions ⟨offset, bytes⟩ = .ok (is, next)) :
    Row offset bytes is := by
  -- the induction is on the number of bytes, since no instruction is empty
  induction hn : bytes.length using Nat.strongRecOn generalizing offset bytes is next with
  | ind n ih =>
      subst hn
      cases bytes with
      | nil =>
          cases h
          exact .nil offset
      | cons b bytes =>
          cases hi : instruction ⟨offset, b :: bytes⟩ with
          | error e =>
              rw [instructions_cons, bind_apply, hi] at h
              cases h
          | ok p =>
              obtain ⟨i, middle⟩ := p
              -- the first instruction has bytes of its own, and the others follow behind
              -- them
              obtain ⟨own, rest, hbytes, hown⟩ := Delimits.instruction _ _ i middle hi
              have hpos := List.length_pos_iff.mpr hown.ne_nil
              rw [hbytes] at h ih ⊢
              rw [hown.instructions] at h
              cases hrest : instructions ⟨offset + own.length, rest⟩ with
              | error e =>
                  rw [hrest] at h
                  cases h
              | ok q =>
                  rw [hrest] at h
                  cases h
                  refine .cons hown (ih rest.length ?_ hrest rfl)
                  rw [List.length_append]
                  omega

-- ============================================================= cuts

/-- The first `k` instructions of an input end at `place`. -/
def EndsAt (input : ByteInput) (k place : Nat) : Prop :=
  ∃ out rest, times instruction k input = .ok (out, ⟨place, rest⟩)

/-- No instructions end where they begin. -/
theorem endsAt_zero {input : ByteInput} {place : Nat} :
    EndsAt input 0 place ↔ place = input.offset := by
  constructor
  · rintro ⟨out, rest, h⟩
    cases h
    rfl
  · rintro rfl
    exact ⟨[], input.rest, rfl⟩

/-- The end of one instruction more is looked for behind its own bytes. -/
theorem Owns.endsAt {offset : Nat} {own rest : List UInt8} {i : Instruction}
    (h : Owns instruction offset own i) {k place : Nat} :
    EndsAt ⟨offset, own ++ rest⟩ (k + 1) place ↔ EndsAt ⟨offset + own.length, rest⟩ k place := by
  -- running one more instruction is running the others behind it
  have hstep : times instruction (k + 1) ⟨offset, own ++ rest⟩
      = (times instruction k ⟨offset + own.length, rest⟩).map fun p => (i :: p.1, p.2) := by
    rw [times, bind_apply, h.whole rest]
    show (times instruction k >>= _) _ = _
    rw [bind_apply]
    cases times instruction k ⟨offset + own.length, rest⟩ with
    | error e => rfl
    | ok p => rfl
  unfold EndsAt
  rw [hstep]
  cases times instruction k ⟨offset + own.length, rest⟩ with
  | error e =>
      constructor
      · rintro ⟨out, left, hout⟩
        cases hout
      · rintro ⟨out, left, hout⟩
        cases hout
  | ok p =>
      obtain ⟨items, next⟩ := p
      constructor
      · rintro ⟨out, left, hout⟩
        cases hout
        exact ⟨items, left, rfl⟩
      · rintro ⟨out, left, hout⟩
        cases hout
        exact ⟨i :: items, left, rfl⟩

/-- Instructions end after they begin. -/
theorem EndsAt.offset_le {input : ByteInput} {k place : Nat} (h : EndsAt input k place) :
    input.offset ≤ place := by
  obtain ⟨out, left, h⟩ := h
  obtain ⟨own, rest, hrest, hown⟩ :=
    (Delimits.instruction.times k) input.offset input.rest out _ h
  have h' : times instruction k ⟨input.offset, own ++ rest⟩ = .ok (out, ⟨place, left⟩) := hrest ▸ h
  obtain ⟨-, hnext⟩ := hown.eq h'
  have hplace : place = input.offset + own.length := congrArg ByteInput.offset hnext
  omega

namespace Row

variable {offset : Nat} {bytes : List UInt8} {is : List Instruction}

/-- What follows a row is read after it. -/
theorem append (h : Row offset bytes is) (more : List UInt8) :
    instructions ⟨offset, bytes ++ more⟩
      = (instructions ⟨offset + bytes.length, more⟩).map fun p => (is ++ p.1, p.2) := by
  induction h with
  | nil offset =>
      show instructions ⟨offset, more⟩ = (instructions ⟨offset, more⟩).map id
      rw [Except.map_id]
      rfl
  | @cons offset own rest i is hown _ ih =>
      rw [List.append_assoc, hown.instructions, ih, List.length_append, ← Nat.add_assoc]
      cases instructions ⟨offset + own.length + rest.length, more⟩ with
      | error e => rfl
      | ok p => rfl

/-- The first bytes of a row are a row where an instruction ends, and
are too few everywhere else. -/
theorem cut (h : Row offset bytes is) {n : Nat} (hn : n ≤ bytes.length) :
    (∃ k ≤ is.length, EndsAt ⟨offset, bytes⟩ k (offset + n) ∧
      Row offset (bytes.take n) (is.take k)) ∨
    (¬∃ k, EndsAt ⟨offset, bytes⟩ k (offset + n)) ∧
      Truncates instructions ⟨offset, bytes.take n⟩ := by
  -- the induction is on the row, and the cut falls before, inside or behind its
  -- first instruction
  induction h generalizing n with
  | nil offset =>
      obtain rfl : n = 0 := Nat.le_zero.mp hn
      exact .inl ⟨0, Nat.le_refl 0, endsAt_zero.mpr rfl, .nil offset⟩
  | @cons offset own rest i is hown _ ih =>
      have hpos := List.length_pos_iff.mpr hown.ne_nil
      by_cases hzero : n = 0
      · subst hzero
        exact .inl ⟨0, Nat.zero_le _, endsAt_zero.mpr rfl, .nil offset⟩
      by_cases hinside : n < own.length
      · -- inside the first instruction
        -- no instruction ends inside another one
        refine .inr ⟨?_, ?_⟩
        · rintro ⟨k, hk⟩
          cases k with
          | zero =>
              have := endsAt_zero.mp hk
              dsimp only at this
              omega
          | succ k =>
              have := (hown.endsAt.mp hk).offset_le
              dsimp only at this
              omega
        -- the first instruction misses bytes, and so does all that follows it
        · rw [List.take_append_of_le_length (Nat.le_of_lt hinside)]
          obtain ⟨b, others, hcons⟩ : ∃ b others, own.take n = b :: others :=
            List.exists_cons_of_ne_nil (by simp [hzero, hown.ne_nil])
          have hcut := hown.cut n hinside
          rw [hcons] at hcut ⊢
          obtain ⟨place, needed, hcut⟩ := hcut.bind fun i =>
            allWithin instruction (others.length + 1) >>= fun is => pure (i :: is)
          exact ⟨place, needed, hcut⟩
      · -- after the first instruction
        rw [List.length_append] at hn
        have htake : (own ++ rest).take n = own ++ rest.take (n - own.length) := by
          rw [List.take_append, List.take_of_length_le (Nat.le_of_not_lt hinside)]
        have hplace : offset + own.length + (n - own.length) = offset + n := by omega
        have hrest := ih (n := n - own.length) (by omega)
        rw [hplace] at hrest
        rw [htake]
        obtain ⟨k, hk, hends, hrow⟩ | ⟨hends, place, needed, hcut⟩ := hrest
        · exact .inl ⟨k + 1, Nat.succ_le_succ hk, hown.endsAt.mpr hends, .cons hown hrow⟩
        · refine .inr ⟨?_, place, needed, ?_⟩
          -- an end behind the first instruction would be an end of the others
          · rintro ⟨k, hk⟩
            cases k with
            | zero =>
                have := endsAt_zero.mp hk
                dsimp only at this
                omega
            | succ k => exact hends ⟨k, hown.endsAt.mp hk⟩
          · rw [hown.instructions, hcut]
            rfl

end Row

end ByteReader

namespace Instruction

open ByteReader

/-- A row of instructions decodes to them. -/
theorem decodeAll_of_row {bytes : List UInt8} {is : List Instruction} (h : Row 0 bytes is) :
    decodeAll bytes = .ok is := by
  have hall := h.append []
  rw [List.append_nil] at hall
  have hend : instructions ⟨0 + bytes.length, []⟩ = .ok ([], ⟨0 + bytes.length, []⟩) := rfl
  rw [hend] at hall
  show (instructions ⟨0, bytes⟩).map Prod.fst = _
  rw [hall]
  show Except.ok (is ++ []) = _
  rw [List.append_nil]

/-- What decodes is a row of instructions. -/
theorem row_of_decodeAll {bytes : List UInt8} {is : List Instruction}
    (h : decodeAll bytes = .ok is) : Row 0 bytes is := by
  have hmap : (instructions ⟨0, bytes⟩).map Prod.fst = .ok is := h
  cases hall : instructions ⟨0, bytes⟩ with
  | error e =>
      rw [hall] at hmap
      cases hmap
  | ok p =>
      obtain ⟨out, next⟩ := p
      rw [hall] at hmap
      cases hmap
      exact row_of_instructions hall

/-- Instructions further on in a buffer are what they are on their
own, with the offset of an error moved. -/
theorem instructions_at (offset : Nat) (bytes : List UInt8) :
    instructions ⟨offset, bytes⟩ = movedOutcome offset (instructions ⟨0, bytes⟩) := by
  have hone : Agrees offset bytes.length instruction instruction :=
    .bounded fun m _ => .instructionWithin (Nat.lt_succ_self m) (Nat.lt_succ_self m)
  have hall : Agrees offset bytes.length instructions instructions :=
    .bounded fun m hm => (hone.mono hm).allWithin (m + 1)
  have hsame := hall.same ⟨0, bytes⟩ (Nat.le_refl _)
  rwa [ByteInput.moved, Nat.zero_add] at hsame

/-- What follows decoded bytes decodes after them, or fails as it does
on its own. -/
theorem decodeAll_append {a : List UInt8} {xs : List Instruction} (h : decodeAll a = .ok xs)
    (b : List UInt8) :
    decodeAll (a ++ b) = match decodeAll b with
      | .ok ys => .ok (xs ++ ys)
      | .error e => .error (e.moved a.length) := by
  have hall (bytes : List UInt8) : decodeAll bytes = (instructions ⟨0, bytes⟩).map Prod.fst := rfl
  rw [hall (a ++ b), hall b, (row_of_decodeAll h).append b, instructions_at, Nat.zero_add]
  cases instructions ⟨0, b⟩ with
  | error e => rfl
  | ok p => rfl

/-- Buffers that decode one by one decode one after another. -/
theorem decodeAll_flatten {codes : List (List UInt8)} {outs : List (List Instruction)}
    (h : List.Forall₂ (fun code out => decodeAll code = .ok out) codes outs) :
    decodeAll codes.flatten = .ok outs.flatten := by
  induction h with
  | nil => rfl
  | cons hcode _ ih =>
      rw [List.flatten_cons, List.flatten_cons, decodeAll_append hcode, ih]

/-- A part of a buffer that ends with an instruction decodes to those
before its end; any other part is reported to be too short. -/
theorem decodeAll_take {bytes : List UInt8} {xs : List Instruction} (h : decodeAll bytes = .ok xs)
    {c : Nat} (hc : c ≤ bytes.length) :
    (∃ k ≤ xs.length, EndsAt ⟨0, bytes⟩ k c ∧ decodeAll (bytes.take c) = .ok (xs.take k)) ∨
    (¬∃ k, EndsAt ⟨0, bytes⟩ k c) ∧
      ∃ place needed, decodeAll (bytes.take c) = .error (.truncated place needed) := by
  have hcut := (row_of_decodeAll h).cut hc
  rw [Nat.zero_add] at hcut
  obtain ⟨k, hk, hends, hrow⟩ | ⟨hends, place, needed, hfail⟩ := hcut
  · exact .inl ⟨k, hk, hends, decodeAll_of_row hrow⟩
  · refine .inr ⟨hends, place, needed, ?_⟩
    show (instructions ⟨0, bytes.take c⟩).map Prod.fst = _
    rw [hfail]
    rfl

end Instruction

-- ======================================================= statements

namespace Statement

open Instruction

/-- Two listings are assembled one after the other. -/
theorem assembleAll_append {xs ys : List Instruction} {a b : List UInt8}
    (hx : assembleAll xs = .ofBytes a) (hy : assembleAll ys = .ofBytes b) :
    assembleAll (xs ++ ys) = .ofBytes (a ++ b) := by
  induction xs generalizing a with
  | nil =>
      cases Chunk.ofBytes_inj.mp hx
      exact hy
  | cons i xs ih =>
      obtain ⟨first, rest, hfirst, hrest, rfl⟩ := Chunk.append_eq_ofBytes.mp hx
      exact Chunk.append_eq_ofBytes.mpr ⟨first, rest ++ b, hfirst, ih hrest, List.append_assoc ..⟩

/-- The moments of two listings are those of the one and of the other. -/
theorem allTimes_append (xs ys : List Instruction) :
    allTimes (xs ++ ys) = allTimes xs ++ allTimes ys := by
  induction xs with
  | nil => rfl
  | cons i xs ih => rw [List.cons_append, allTimes, allTimes, ih, List.append_assoc]

/-- A statement that lowering can rely on, with the code it gives. -/
def Emits (s : Statement) (code : List UInt8) : Prop :=
  s.IsSound ∧ s.emit = .ok code

/-- A statement that emits bytes has assembled every one of its
instructions. -/
theorem Emits.assembled {s : Statement} {code : List UInt8} (h : s.Emits code) :
    AllAssembled s.lower ∧ assembleAll s.lower = .ofBytes code := by
  obtain ⟨body, hbody, hpushes⟩ := lower_eq h.1
  refine ⟨?_, Chunk.result_eq_ok.mp h.2⟩
  rw [hbody, allAssembled_append]
  exact ⟨hpushes.assembled, trivial, trivial⟩

/-- The code of statements one after another is the code of their
instructions one after another. -/
theorem emits_flatten {statements : List Statement} {codes : List (List UInt8)}
    (h : List.Forall₂ Emits statements codes) :
    AllAssembled (statements.flatMap lower) ∧
      assembleAll (statements.flatMap lower) = .ofBytes codes.flatten := by
  induction h with
  | nil => exact ⟨trivial, rfl⟩
  | cons hs _ ih =>
      obtain ⟨hassembled, hcode⟩ := hs.assembled
      rw [List.flatMap_cons, List.flatten_cons, allAssembled_append]
      exact ⟨⟨hassembled, ih.1⟩, assembleAll_append hcode ih.2⟩

/-- The moments of several statements are those of each. -/
theorem mem_allTimes_flatMap {statements : List Statement} {m : Moment} :
    m ∈ allTimes (statements.flatMap lower) ↔ ∃ s ∈ statements, m ∈ allTimes s.lower := by
  induction statements with
  | nil => simp [allTimes]
  | cons s statements ih => simp [allTimes_append, ih]

/-- Statements without a last leap second decode one by one. -/
theorem emits_decode {statements : List Statement} {codes : List (List UInt8)}
    (h : List.Forall₂ Emits statements codes)
    (hleap : ∀ s ∈ statements, ∀ m ∈ allTimes s.lower, m.isLastLeap = false) :
    ∃ outs, List.Forall₂ (fun code out => decodeAll code = .ok out) codes outs := by
  induction h with
  | nil => exact ⟨[], .nil⟩
  | cons hs _ ih =>
      rw [List.forall_mem_cons] at hleap
      obtain ⟨outs, houts⟩ := ih hleap.2
      obtain ⟨hassembled, hcode⟩ := hs.assembled
      obtain ⟨out, hout⟩ :=
        Option.isSome_iff_exists.mp (hassembled.isSome_cutAll?.mpr hleap.1)
      have hends := hassembled.ends hcode
      rw [hout] at hends
      exact ⟨out :: outs, .cons (decodeAll_of_ends_some hends) houts⟩

/-- A last leap second stops the decoding of everything after it. -/
theorem emits_stop {statements : List Statement} {codes : List (List UInt8)}
    (h : List.Forall₂ Emits statements codes)
    (hleap : ∃ s ∈ statements, ∃ m ∈ allTimes s.lower, m.isLastLeap = true) :
    ∃ offset, decodeAll codes.flatten = .error (.badTime offset) := by
  obtain ⟨hassembled, hcode⟩ := emits_flatten h
  have hnone : cutAll? (statements.flatMap lower) = none := by
    rw [← Option.not_isSome_iff_eq_none, hassembled.isSome_cutAll?]
    intro hall
    obtain ⟨s, hs, m, hm, hlast⟩ := hleap
    rw [hall m (mem_allTimes_flatMap.mpr ⟨s, hs, hm⟩)] at hlast
    cases hlast
  have hends := hassembled.ends hcode
  rw [hnone] at hends
  exact decodeAll_of_ends_none hends

end Statement

namespace Instruction

open ByteReader Statement

/-- The stream of instructions delimits itself. What follows decoded
bytes decodes after them, or fails as it does on its own, that much
further on. A part of a buffer decodes just when it ends with an
instruction, to those up to there, and is reported as too short
otherwise. The codes of statements decode one after another to all
their instructions, unless a literal holds the leap second at the end
of the last day: decoding stops at a time out of range then. -/
theorem decodeAll_is_self_delimiting (a : List UInt8) (statements : List Statement)
    (codes : List (List UInt8)) :
    (∀ xs, decodeAll a = .ok xs →
      (∀ b, decodeAll (a ++ b) = match decodeAll b with
        | .ok ys => .ok (xs ++ ys)
        | .error e => .error (e.moved a.length)) ∧
      ∀ c ≤ a.length,
        (∃ k ≤ xs.length, EndsAt ⟨0, a⟩ k c ∧ decodeAll (a.take c) = .ok (xs.take k)) ∨
        (¬∃ k, EndsAt ⟨0, a⟩ k c) ∧
          ∃ place needed, decodeAll (a.take c) = .error (.truncated place needed)) ∧
    (List.Forall₂ Emits statements codes →
      ((∀ s ∈ statements, ∀ m ∈ allTimes s.lower, m.isLastLeap = false) →
        ∃ outs, List.Forall₂ (fun code out => decodeAll code = .ok out) codes outs ∧
          decodeAll codes.flatten = .ok outs.flatten) ∧
      ((∃ s ∈ statements, ∃ m ∈ allTimes s.lower, m.isLastLeap = true) →
        ∃ offset, decodeAll codes.flatten = .error (.badTime offset))) := by
  refine ⟨fun xs h => ⟨decodeAll_append h, fun c hc => decodeAll_take h hc⟩, fun h => ?_⟩
  -- appending and cutting are laws of the row; the codes of statements are rows
  -- in a row
  refine ⟨fun hleap => ?_, emits_stop h⟩
  obtain ⟨outs, houts⟩ := emits_decode h hleap
  exact ⟨outs, houts, decodeAll_flatten houts⟩

/-- A buffer followed by a byte that is no opcode, the same buffer cut
in its literal, and a statement followed by one that holds the leap
second at the end of the last day. -/
theorem decodeAll_is_self_delimiting_leap_second :
    let bytes : List UInt8 := [8, 1, 1, 5]
    let one : Statement := .expression (.literal (.bool true))
    let last : Statement := .expression (.literal (.time ⟨8210266876799, 1000000000⟩))
    decodeAll bytes = .ok [.loadLookup, .loadValue (.bool true)] ∧
    decodeAll (bytes ++ [13]) = .error (.unknownOpcode 4 13) ∧
    ((∃ k ≤ 2, EndsAt ⟨0, bytes⟩ k 3 ∧
        decodeAll [8, 1, 1] = .ok ([.loadLookup, .loadValue (.bool true)].take k)) ∨
      (¬∃ k, EndsAt ⟨0, bytes⟩ k 3) ∧
        ∃ place needed, decodeAll [8, 1, 1] = .error (.truncated place needed)) ∧
    (∃ codes outs, List.Forall₂ Emits [one, one] codes ∧
      List.Forall₂ (fun code out => decodeAll code = .ok out) codes outs ∧
        decodeAll codes.flatten = .ok outs.flatten) ∧
    ∃ codes offset, List.Forall₂ Emits [one, last] codes ∧
      decodeAll codes.flatten = .error (.badTime offset) := by
  intro bytes one last
  have hbytes : decodeAll bytes = .ok [.loadLookup, .loadValue (.bool true)] := rfl
  have hone : one.Emits (assembleAll one.lower).bytes := by
    refine ⟨⟨fun root hroot => ?_, trivial⟩, rfl⟩
    cases hroot
    decide
  have hlast : last.Emits (assembleAll last.lower).bytes := by
    refine ⟨⟨fun root hroot => ?_, trivial⟩, rfl⟩
    cases hroot
    decide
  have hboth : List.Forall₂ Emits [one, one] _ := .cons hone (.cons hone .nil)
  have hmixed : List.Forall₂ Emits [one, last] _ := .cons hone (.cons hlast .nil)
  obtain ⟨happend, htake⟩ := (decodeAll_is_self_delimiting bytes [] []).1 _ hbytes
  refine ⟨hbytes, happend [13], htake 3 (by decide), ?_, ?_⟩
  · obtain ⟨outs, houts, hall⟩ := ((decodeAll_is_self_delimiting [] _ _).2 hboth).1 (by decide)
    exact ⟨_, outs, hboth, houts, hall⟩
  · obtain ⟨offset, hoffset⟩ := ((decodeAll_is_self_delimiting [] _ _).2 hmixed).2
      ⟨last, by simp, ⟨8210266876799, 1000000000⟩, List.mem_cons_self, rfl⟩
    exact ⟨_, offset, hmixed, hoffset⟩

end Instruction

end RelQuery
