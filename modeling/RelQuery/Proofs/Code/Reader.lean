/-
What a reader of bytes does, whatever its place and its bound.

Readers of nested data carry a bound on the depth, and every reader
tells offsets in the whole buffer. Neither is part of what bytes mean.
`Agrees k n r s` compares two readers on inputs of at most `n` bytes:
what `r` does `k` bytes further on is what `s` does here, with every
offset moved by `k`. Each level of nesting takes a byte, so any two
bounds above the number of bytes left agree, and one induction on that
number settles place and depth together.

The comparison is made once for each reader. Instructions come last,
because the code of a segment is read on its own: a decoder given that
code alone, as a buffer at offset zero, does what the decoder does that
meets it inside another buffer.
-/
import RelQuery.Code.Decode

namespace RelQuery

namespace ByteReader

variable {α β : Type}

-- ============================================= readers as functions

/-- Two readers run one after the other, if the first succeeds. -/
theorem bind_apply (r : ByteReader α) (f : α → ByteReader β) (input : ByteInput) :
    (r >>= f) input = (r input).bind fun p => f p.1 p.2 := by
  cases h : r input with
  | error e => simp [bind, StateT.bind, Except.bind, h]
  | ok p => simp [bind, StateT.bind, Except.bind, h]

end ByteReader

-- ===================================================== place and depth

/-- An input `k` bytes further on in its buffer. -/
def ByteInput.moved (k : Nat) (input : ByteInput) : ByteInput :=
  ⟨input.offset + k, input.rest⟩

/-- An error `k` bytes further on in its buffer. -/
def DecodeError.moved (k : Nat) : DecodeError → DecodeError
  | .truncated offset needed => .truncated (offset + k) needed
  | .unknownOpcode offset byte => .unknownOpcode (offset + k) byte
  | .badValueTag offset tag => .badValueTag (offset + k) tag
  | .badTypeTag offset tag => .badTypeTag (offset + k) tag
  | .badSegmentKind offset kind => .badSegmentKind (offset + k) kind
  | .invalidUtf8 offset => .invalidUtf8 (offset + k)
  | .badTime offset => .badTime (offset + k)
  | .malformed offset reason => .malformed (offset + k) reason

namespace ByteReader

variable {α β : Type}

/-- An outcome `k` bytes further on in its buffer. -/
def movedOutcome (k : Nat) :
    Except DecodeError (α × ByteInput) → Except DecodeError (α × ByteInput)
  | .ok (a, next) => .ok (a, next.moved k)
  | .error e => .error (e.moved k)

/-- On inputs of at most `n` bytes, what `r` does `k` bytes further on
is what `s` does here; and `s` never puts bytes back. -/
structure Agrees (k n : Nat) (r s : ByteReader α) : Prop where
  same : ∀ input : ByteInput, input.rest.length ≤ n →
    r (input.moved k) = movedOutcome k (s input)
  shrinks : ∀ (input : ByteInput) (a : α) (next : ByteInput), input.rest.length ≤ n →
    s input = .ok (a, next) → next.rest.length ≤ input.rest.length

namespace Agrees

variable {k n : Nat}

/-- A value that is not read agrees with itself anywhere. -/
theorem pure (a : α) : Agrees k n (Pure.pure a) (Pure.pure a) where
  same := fun _ _ => rfl
  shrinks := by
    intro input b next _ h
    cases h
    exact Nat.le_refl _

theorem throw (e : DecodeError) :
    Agrees (α := α) k n (throw (e.moved k)) (MonadExcept.throw e) where
  same := fun _ _ => rfl
  shrinks := by
    intro input a next _ h
    cases h

/-- Readers that agree leave inputs on which the next ones agree. -/
theorem bind {r s : ByteReader α} {f g : α → ByteReader β} (h : Agrees k n r s)
    (hf : ∀ a, Agrees k n (f a) (g a)) : Agrees k n (r >>= f) (s >>= g) where
  same := by
    intro input hlen
    rw [bind_apply, bind_apply, h.same input hlen]
    cases hs : s input with
    | error e => rfl
    | ok p =>
        have hnext := h.shrinks input p.1 p.2 hlen hs
        exact (hf p.1).same p.2 (Nat.le_trans hnext hlen)
  shrinks := by
    intro input b next hlen hok
    rw [bind_apply] at hok
    cases hs : s input with
    | error e =>
        rw [hs] at hok
        cases hok
    | ok p =>
        rw [hs] at hok
        have hnext := h.shrinks input p.1 p.2 hlen hs
        exact Nat.le_trans ((hf p.1).shrinks p.2 b next (Nat.le_trans hnext hlen) hok) hnext

theorem offset_bind {f g : Nat → ByteReader α}
    (h : ∀ start, Agrees k n (f (start + k)) (g start)) :
    Agrees k n (offset >>= f) (offset >>= g) where
  same := fun input hlen => (h input.offset).same input hlen
  shrinks := fun input a next hlen hok => (h input.offset).shrinks input a next hlen hok

end Agrees

/-- A split loses no byte. -/
theorem split?_length {n : Nat} {xs a b : List α} (h : split? n xs = some (a, b)) :
    a.length + b.length = xs.length := by
  induction n generalizing xs a b with
  | zero =>
      cases h
      exact Nat.zero_add _
  | succ n ih =>
      cases xs with
      | nil => cases h
      | cons x xs =>
          rw [split?, Option.map_eq_some_iff] at h
          obtain ⟨⟨a', b'⟩, hsplit, hab⟩ := h
          cases hab
          have := ih hsplit
          simp only [List.length_cons]
          omega

/-- What is taken and what is left make up the input. -/
theorem take_ok {n : Nat} {input next : ByteInput} {xs : List UInt8}
    (h : take n input = .ok (xs, next)) :
    xs.length + next.rest.length = input.rest.length := by
  rw [take] at h
  cases hs : split? n input.rest with
  | none =>
      rw [hs] at h
      cases h
  | some p =>
      rw [hs] at h
      cases h
      exact split?_length hs

/-- Taking bytes somewhere else gives the same ones. -/
theorem take_moved (k count : Nat) (input : ByteInput) :
    take count (input.moved k) = movedOutcome k (take count input) := by
  have hrest : (input.moved k).rest = input.rest := rfl
  rw [take, take, hrest]
  cases split? count input.rest with
  | none => rfl
  | some p =>
      simp only [movedOutcome, ByteInput.moved, Nat.add_right_comm]

/-- One bound more allows for one item more. -/
theorem allWithin_succ (r : ByteReader α) (most : Nat) (input : ByteInput) :
    allWithin r (most + 1) input
      = if input.rest.isEmpty then .ok ([], input)
        else (r >>= fun a => allWithin r most >>= fun rest => pure (a :: rest)) input := by
  rw [allWithin]
  show (if input.rest.isEmpty then pure [] else _ : ByteReader (List α)) input = _
  cases input.rest.isEmpty with
  | true => rfl
  | false => rfl

namespace Agrees

variable {k n : Nat}

/-- What follows a run of bytes is given no more bytes than there
were. -/
theorem take_bind {count : Nat} {f g : List UInt8 → ByteReader α}
    (h : ∀ xs, xs.length ≤ n → Agrees k n (f xs) (g xs)) :
    Agrees k n (take count >>= f) (take count >>= g) where
  same := by
    intro input hlen
    rw [bind_apply, bind_apply, take_moved]
    cases hs : take count input with
    | error e => rfl
    | ok p =>
        have hp := take_ok hs
        exact (h p.1 (by omega)).same p.2 (by omega)
  shrinks := by
    intro input a next hlen hok
    rw [bind_apply] at hok
    cases hs : take count input with
    | error e =>
        rw [hs] at hok
        cases hok
    | ok p =>
        rw [hs] at hok
        have hp := take_ok hs
        have := (h p.1 (by omega)).shrinks p.2 a next (by omega) hok
        omega

theorem number (count : Nat) : Agrees k n (number count) (ByteReader.number count) :=
  take_bind fun xs _ => pure (ofBigEndian xs)

/-- What follows a byte has fewer bytes left. -/
theorem byte_bind {f g : UInt8 → ByteReader α}
    (h : ∀ m, m < n → ∀ b, Agrees k m (f b) (g b)) :
    Agrees k n (byte >>= f) (byte >>= g) where
  same := by
    intro input hlen
    obtain ⟨start, rest⟩ := input
    cases rest with
    | nil => rfl
    | cons b rest =>
        have := (h rest.length hlen b).same ⟨start + 1, rest⟩ (Nat.le_refl _)
        rw [ByteInput.moved, Nat.add_right_comm] at this
        exact this
  shrinks := by
    intro input a next hlen hok
    obtain ⟨start, rest⟩ := input
    cases rest with
    | nil => cases hok
    | cons b rest =>
        have := (h rest.length hlen b).shrinks ⟨start + 1, rest⟩ a next (Nat.le_refl _) hok
        exact Nat.le_succ_of_le this

theorem mono {m : Nat} {r s : ByteReader α} (hm : m ≤ n) (h : Agrees k n r s) :
    Agrees k m r s where
  same := fun input hlen => h.same input (Nat.le_trans hlen hm)
  shrinks := fun input a next hlen hok => h.shrinks input a next (Nat.le_trans hlen hm) hok

/-- A byte of which only the value matters. -/
theorem byte_bind_all {f g : UInt8 → ByteReader α} (h : ∀ b, Agrees k n (f b) (g b)) :
    Agrees k n (byte >>= f) (byte >>= g) :=
  byte_bind fun _ hm b => (h b).mono (Nat.le_of_lt hm)

/-- Text agrees: what is wrong with it is told from where it begins. -/
theorem utf8 (count : Nat) : Agrees k n (utf8 count) (ByteReader.utf8 count) := by
  refine offset_bind fun start => take_bind fun xs _ => ?_
  cases String.fromUTF8? ⟨xs.toArray⟩ with
  | none => exact throw (.invalidUtf8 start)
  | some s => exact pure s

theorem name : Agrees k n name ByteReader.name :=
  (number 2).bind fun count => utf8 count

/-- Items agree if each does. -/
theorem times {r s : ByteReader α} (h : Agrees k n r s) (count : Nat) :
    Agrees k n (times r count) (ByteReader.times s count) := by
  induction count with
  | zero => exact pure []
  | succ count ih => exact h.bind fun a => ih.bind fun rest => pure (a :: rest)

/-- Bounded readers agree if they do at every bound that matters. -/
theorem bounded {r s : Nat → ByteReader α} (h : ∀ m, m ≤ n → Agrees k m (r (m + 1)) (s (m + 1))) :
    Agrees k n (bounded r) (ByteReader.bounded s) where
  same := fun input hlen => (h _ hlen).same input (Nat.le_refl _)
  shrinks := fun input a next hlen hok => (h _ hlen).shrinks input a next (Nat.le_refl _) hok

-- ------------------------------------------------------------- types

/-- Columns agree, with the start of the list moved like everything else. -/
theorem columns {r s : ByteReader DataType} (h : Agrees k n r s) (start count : Nat)
    (done : Heading) :
    Agrees k n (columns r (start + k) count done) (ByteReader.columns s start count done) := by
  induction count generalizing done with
  | zero => exact pure done
  | succ count ih =>
      refine name.bind fun columnName => h.bind fun columnType => ?_
      cases Heading.push done ⟨columnName, columnType⟩ with
      | ok done => exact ih done
      | error e => exact throw (.malformed start e)

theorem headingOf {r s : ByteReader DataType} (h : Agrees k n r s) :
    Agrees k n (headingOf r) (ByteReader.headingOf s) :=
  offset_bind fun start => (number 2).bind fun count => h.columns start count []

/-- Any two bounds above the number of bytes left give the same type. -/
theorem typeWithin {d e : Nat} (hd : n < d) (he : n < e) :
    Agrees k n (typeWithin d) (ByteReader.typeWithin e) := by
  induction n using Nat.strongRecOn generalizing d e with
  | ind n ih =>
      obtain ⟨d, rfl⟩ := Nat.exists_eq_succ_of_ne_zero (Nat.ne_of_gt (Nat.zero_lt_of_lt hd))
      obtain ⟨e, rfl⟩ := Nat.exists_eq_succ_of_ne_zero (Nat.ne_of_gt (Nat.zero_lt_of_lt he))
      refine offset_bind fun start => byte_bind fun m hm tag => ?_
      have inner := ih m hm (d := d) (e := e) (by omega) (by omega)
      generalize tag.toNat = t
      match t with
      | 0 => exact pure _
      | 1 => exact pure _
      | 2 => exact pure _
      | 3 => exact pure _
      | 4 => exact pure _
      | 5 => exact inner.headingOf.bind fun h => pure _
      | 6 => exact inner.headingOf.bind fun h => pure _
      | 7 =>
          refine name.bind fun typeName => inner.headingOf.bind fun h => byte_bind_all fun b => ?_
          by_cases hb : (b == 0) = true
          · simp only [hb]
            exact pure _
          · simp only [hb]
            exact inner.bind fun parent => pure _
      | 8 => exact pure _
      | 9 => exact pure _
      | t + 10 => exact throw (.badTypeTag start tag)

theorem type : Agrees k n type ByteReader.type :=
  bounded fun m _ => typeWithin (Nat.lt_succ_self m) (Nat.lt_succ_self m)

theorem heading : Agrees k n heading ByteReader.heading :=
  type.headingOf

-- ------------------------------------------------------------ values

theorem decimal : Agrees k n decimal ByteReader.decimal :=
  take_bind fun _ _ => pure _

theorem moment : Agrees k n moment ByteReader.moment := by
  refine offset_bind fun start => (number 8).bind fun ms => ?_
  cases Moment.ofMillis? (signed64 ms) with
  | none => exact throw (.badTime start)
  | some m => exact pure m

/-- Any two bounds above the number of bytes left give the same
value. -/
theorem valueWithin {d e : Nat} (hd : n < d) (he : n < e) :
    Agrees k n (valueWithin d) (ByteReader.valueWithin e) := by
  induction n using Nat.strongRecOn generalizing d e with
  | ind n ih =>
      obtain ⟨d, rfl⟩ := Nat.exists_eq_succ_of_ne_zero (Nat.ne_of_gt (Nat.zero_lt_of_lt hd))
      obtain ⟨e, rfl⟩ := Nat.exists_eq_succ_of_ne_zero (Nat.ne_of_gt (Nat.zero_lt_of_lt he))
      refine offset_bind fun start => byte_bind fun m hm tag => ?_
      have inner := ih m hm (d := d) (e := e) (by omega) (by omega)
      generalize tag.toNat = t
      match t with
      | 0 => exact pure _
      | 1 => exact byte_bind_all fun b => pure _
      | 2 => exact decimal.bind fun d => pure _
      | 3 => exact (number 4).bind fun count => (utf8 count).bind fun s => pure _
      | 4 => exact (number 4).bind fun count => take_bind fun bytes _ => pure _
      | 5 => exact moment.bind fun m => pure _
      | 6 =>
          exact (number 2).bind fun count =>
            ((name.bind fun n => inner.bind fun v => pure (n, v)).times count).bind fun fields =>
              pure _
      | 7 =>
          exact heading.bind fun h => (number 4).bind fun count =>
            ((inner.times h.length).times count).bind fun rows => pure _
      | 8 => exact heading.bind fun h => pure _
      | t + 9 => exact throw (.badValueTag start tag)

theorem value : Agrees k n value ByteReader.value :=
  bounded fun m _ => valueWithin (Nat.lt_succ_self m) (Nat.lt_succ_self m)

-- ------------------------------------------------------ instructions

/-- Items up to the end of the input agree if each does. -/
theorem allWithin {r s : ByteReader α} (h : Agrees k n r s) (most : Nat) :
    Agrees k n (allWithin r most) (ByteReader.allWithin s most) := by
  induction most with
  | zero => exact pure []
  | succ most ih =>
      have step := h.bind fun a => ih.bind fun rest => pure (a :: rest)
      constructor
      · intro input hlen
        rw [allWithin_succ, allWithin_succ]
        show (if input.rest.isEmpty then _ else _) = _
        cases input.rest.isEmpty with
        | true => rfl
        | false => exact step.same input hlen
      · intro input a next hlen hok
        rw [allWithin_succ] at hok
        cases hrest : input.rest.isEmpty with
        | true =>
            rw [hrest] at hok
            cases hok
            exact Nat.le_refl _
        | false =>
            rw [hrest] at hok
            exact step.shrinks input a next hlen hok

/-- Bytes read on their own are part of those that were left. -/
theorem nested {r s : ByteReader α} (h : Agrees k n r s) (start : Nat) {code : List UInt8}
    (hcode : code.length ≤ n) :
    Agrees k n (nested r (start + k) code) (ByteReader.nested s start code) := by
  have inner := (bounded fun m hm => (h.mono hm).allWithin (m + 1)).same ⟨start, code⟩ hcode
  constructor
  · intro input _
    rw [ByteReader.nested, ByteReader.nested]
    have hmoved : ByteReader.bounded (ByteReader.allWithin r) ⟨start + k, code⟩ = _ := inner
    rw [hmoved]
    cases ByteReader.bounded (ByteReader.allWithin s) ⟨start, code⟩ with
    | error e => rfl
    | ok p => rfl
  · intro input a next _ hok
    rw [ByteReader.nested] at hok
    cases hs : ByteReader.bounded (ByteReader.allWithin s) ⟨start, code⟩ with
    | error e =>
        rw [hs] at hok
        cases hok
    | ok p =>
        rw [hs] at hok
        cases hok
        exact Nat.le_refl _

/-- The kind of a segment agrees. -/
theorem segmentKind : Agrees k n segmentKind ByteReader.segmentKind := by
  refine offset_bind fun start => byte_bind_all fun b => ?_
  cases SegmentKind.ofByte? b with
  | none => exact throw (.badSegmentKind start b)
  | some kind => exact pure kind

/-- A segment agrees if its code does. -/
theorem segmentOf {r s : ByteReader Instruction} (h : Agrees k n r s) :
    Agrees k n (segmentOf r) (ByteReader.segmentOf s) := by
  refine name.bind fun segmentName => segmentKind.bind fun kind => ?_
  refine (number 2).bind fun accums => byte_bind_all fun flags => ?_
  refine heading.bind fun lookup => ?_
  -- the code is taken from the input, so it is no longer than that
  refine (number 4).bind fun length => offset_bind fun start => ?_
  refine take_bind fun code hcode => ?_
  exact (h.nested start hcode).bind fun body => pure _

/-- Any two bounds above the number of bytes left give the same
instruction. -/
theorem instructionWithin {d e : Nat} (hd : n < d) (he : n < e) :
    Agrees k n (instructionWithin d) (ByteReader.instructionWithin e) := by
  induction n using Nat.strongRecOn generalizing d e with
  | ind n ih =>
      obtain ⟨d, rfl⟩ := Nat.exists_eq_succ_of_ne_zero (Nat.ne_of_gt (Nat.zero_lt_of_lt hd))
      obtain ⟨e, rfl⟩ := Nat.exists_eq_succ_of_ne_zero (Nat.ne_of_gt (Nat.zero_lt_of_lt he))
      -- behind the opcode there are fewer bytes, so the bounds still differ in
      -- nothing that matters
      refine offset_bind fun start => byte_bind fun m hm b => ?_
      have inner := ih m hm (d := d) (e := e) (by omega) (by omega)
      cases Opcode.ofByte? b with
      | none => exact throw (.unknownOpcode start b)
      | some op =>
          cases op with
          | finish => exact pure _
          | loadValue => exact value.bind fun v => pure _
          | loadCatalog => exact name.bind fun n => pure _
          | loadCatalogRef => exact name.bind fun n => pure _
          | loadField => exact name.bind fun n => pure _
          | loadComponent => exact name.bind fun n => pure _
          | loadTupleField => exact name.bind fun n => pure _
          | loadAccumulators => exact pure _
          | loadLookup => exact pure _
          | loadSegment => exact inner.segmentOf
          | call => exact name.bind fun callee => byte_bind_all fun arity => pure _
          | callVariadic =>
              exact name.bind fun callee => byte_bind_all fun fixed =>
                byte_bind_all fun more => pure _
          | callVariadicTable =>
              exact name.bind fun callee => byte_bind_all fun fixed =>
                byte_bind_all fun more => pure _

/-- A bound above the number of bytes left is as good as the reader's
own. -/
theorem instruction {d : Nat} (hd : n < d) :
    Agrees k n (ByteReader.instructionWithin d) instruction where
  same := fun input hlen =>
    (instructionWithin (Nat.lt_of_le_of_lt hlen hd) (Nat.lt_succ_self _)).same input (Nat.le_refl _)
  shrinks := fun input a next _ hok =>
    (instructionWithin (k := k) (Nat.lt_succ_self _) (Nat.lt_succ_self _)).shrinks input a next
      (Nat.le_refl _) hok

end Agrees

/-- Decoding runs the bounded reader from the beginning of the code. -/
theorem decodeAll_eq (code : List UInt8) :
    Instruction.decodeAll code = (bounded (allWithin instruction) ⟨0, code⟩).map Prod.fst :=
  rfl

/-- Code inside another buffer decodes to what it decodes to as a
buffer of its own, with the offset of an error moved. -/
theorem nested_eq {code : List UInt8} {d : Nat} (hd : code.length < d) (start : Nat)
    (input : ByteInput) :
    nested (instructionWithin d) start code input =
      match Instruction.decodeAll code with
      | .ok body => .ok (body, input)
      | .error e => .error (e.moved start) := by
  have agree := Agrees.bounded fun m hm =>
    ((Agrees.instruction (k := start) hd).mono hm).allWithin (m + 1)
  have moved := agree.same ⟨0, code⟩ (Nat.le_refl _)
  rw [ByteInput.moved, Nat.zero_add] at moved
  rw [nested, moved, decodeAll_eq]
  cases bounded (allWithin instruction) ⟨0, code⟩ with
  | error e => rfl
  | ok p => rfl

end ByteReader

end RelQuery
