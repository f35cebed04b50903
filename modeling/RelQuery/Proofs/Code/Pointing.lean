/-
Where the error of a buffer points.

A body is decoded on its own, by a decoder that knows where the body
begins in the whole buffer. An error then tells a place in the whole
buffer as long as every reader keeps to what it was given: the place is
there, the byte that is reported stands at it, and where bytes are
missing the end of the body comes first (`PointsInto`).

`Points origin d r` says so of a reader. It speaks of everything since
`origin` and not of what is left, because an error about a tag or a
text is raised after its bytes have been taken and tells where they
began. The bound `d` on the bytes left is there for the readers that
stop at a depth: it is used up only where no byte is left.

Only the instruction that loads a segment goes into another run of
bytes. `body?` tells which one, and `FailsIn` follows a failure from a
buffer through the bodies it goes into, down to the innermost one.
-/
import RelQuery.Proofs.Code.Delimiting

namespace RelQuery

namespace DecodeError

/-- The place in the whole buffer that an error tells. -/
def offset : DecodeError → Nat
  | .truncated offset _ | .unknownOpcode offset _ | .badValueTag offset _ | .badTypeTag offset _
  | .badSegmentKind offset _ | .invalidUtf8 offset | .badTime offset | .malformed offset _ => offset

/-- The byte that an error reports, of the errors that report one. -/
def byte? : DecodeError → Option UInt8
  | .unknownOpcode _ b | .badValueTag _ b | .badTypeTag _ b | .badSegmentKind _ b => some b
  | .truncated .. | .invalidUtf8 _ | .badTime _ | .malformed .. => none

end DecodeError

namespace ByteInput

/-- The input is what is left of `origin` after some of its bytes. -/
def IsLeftOf (input origin : ByteInput) : Prop :=
  ∃ xs, origin.rest = xs ++ input.rest ∧ input.offset = origin.offset + xs.length

theorem IsLeftOf.refl (input : ByteInput) : input.IsLeftOf input :=
  ⟨[], rfl, rfl⟩

/-- What is left of what is left is left. -/
theorem IsLeftOf.trans {a b c : ByteInput} (hab : a.IsLeftOf b) (hbc : b.IsLeftOf c) :
    a.IsLeftOf c := by
  obtain ⟨xs, hxs, ha⟩ := hab
  obtain ⟨ys, hys, hb⟩ := hbc
  refine ⟨ys ++ xs, by rw [hys, hxs, List.append_assoc], ?_⟩
  rw [ha, hb, List.length_append, Nat.add_assoc]

theorem IsLeftOf.tail (offset : Nat) (b : UInt8) (rest : List UInt8) :
    (⟨offset + 1, rest⟩ : ByteInput).IsLeftOf ⟨offset, b :: rest⟩ :=
  ⟨[b], rfl, rfl⟩

/-- What is left is no longer than the input. -/
theorem IsLeftOf.length_le {input origin : ByteInput} (h : input.IsLeftOf origin) :
    input.rest.length ≤ origin.rest.length := by
  obtain ⟨xs, hxs, -⟩ := h
  rw [hxs, List.length_append]
  exact Nat.le_add_left _ _

/-- The input is a run of bytes of `origin`, in its place. -/
def IsWithin (input origin : ByteInput) : Prop :=
  ∃ before after, origin.rest = before ++ input.rest ++ after ∧
    input.offset = origin.offset + before.length

theorem IsWithin.refl (input : ByteInput) : input.IsWithin input :=
  ⟨[], [], (List.append_nil _).symm, rfl⟩

theorem IsLeftOf.isWithin {input origin : ByteInput} (h : input.IsLeftOf origin) :
    input.IsWithin origin := by
  obtain ⟨xs, hxs, hplace⟩ := h
  exact ⟨xs, [], by rw [List.append_nil, hxs], hplace⟩

/-- Of inputs within each other the innermost lies within the outermost. -/
theorem IsWithin.trans {a b c : ByteInput} (hab : a.IsWithin b) (hbc : b.IsWithin c) :
    a.IsWithin c := by
  obtain ⟨xs, xs', hxs, ha⟩ := hab
  obtain ⟨ys, ys', hys, hb⟩ := hbc
  refine ⟨ys ++ xs, xs' ++ ys', by rw [hys, hxs]; simp only [List.append_assoc], ?_⟩
  rw [ha, hb, List.length_append, Nat.add_assoc]

end ByteInput

namespace ByteReader

variable {α β : Type}

-- ===================================================== errors in place

/-- The error points into the input: between its start and its end, at
the byte that it reports, and so near the end that bytes it reports as
missing are. -/
structure PointsInto (input : ByteInput) (e : DecodeError) : Prop where
  from_start : input.offset ≤ e.offset
  to_end : e.offset ≤ input.offset + input.rest.length
  reported : ∀ b, e.byte? = some b → input.rest[e.offset - input.offset]? = some b
  missing : ∀ place needed, e = .truncated place needed →
    input.offset + input.rest.length < place + needed

namespace PointsInto

/-- What lies in a part of the input lies in the input; bytes can be
missing in the part alone. -/
theorem outward {input origin : ByteInput} {e : DecodeError} (h : PointsInto input e)
    (hin : input.IsWithin origin) :
    origin.offset ≤ e.offset ∧ e.offset ≤ origin.offset + origin.rest.length ∧
      ∀ b, e.byte? = some b → origin.rest[e.offset - origin.offset]? = some b := by
  obtain ⟨before, after, hrest, hplace⟩ := hin
  have hstart := h.from_start
  have hend := h.to_end
  have hlen : origin.rest.length = before.length + input.rest.length + after.length := by
    rw [hrest, List.length_append, List.length_append]
  refine ⟨by omega, by omega, fun b hb => ?_⟩
  have hat := h.reported b hb
  have hshift : e.offset - origin.offset = before.length + (e.offset - input.offset) := by omega
  obtain ⟨hlt, -⟩ := List.getElem?_eq_some_iff.mp hat
  rw [hrest, hshift, List.append_assoc, List.getElem?_append_right (Nat.le_add_right _ _),
    Nat.add_sub_cancel_left, List.getElem?_append_left hlt]
  exact hat

/-- An error about what is left is one about the input. -/
theorem of_left {input origin : ByteInput} {e : DecodeError} (h : PointsInto input e)
    (hleft : input.IsLeftOf origin) : PointsInto origin e := by
  obtain ⟨hstart, hend, hreported⟩ := h.outward hleft.isWithin
  obtain ⟨xs, hrest, hplace⟩ := hleft
  refine ⟨hstart, hend, hreported, fun place needed he => ?_⟩
  have hmissing := h.missing place needed he
  rw [hrest, List.length_append]
  omega

/-- An error that tells a place alone. -/
theorem of_place {origin : ByteInput} {e : DecodeError} (hstart : origin.offset ≤ e.offset)
    (hend : e.offset ≤ origin.offset + origin.rest.length) (hbyte : e.byte? = none)
    (hmissing : ∀ place needed, e ≠ .truncated place needed) : PointsInto origin e where
  from_start := hstart
  to_end := hend
  reported := fun b hb => by rw [hbyte] at hb; cases hb
  missing := fun place needed he => absurd he (hmissing place needed)

/-- An error that tells a byte and its place. -/
theorem of_byte {origin : ByteInput} {e : DecodeError} {b : UInt8}
    (hstart : origin.offset ≤ e.offset)
    (hat : origin.rest[e.offset - origin.offset]? = some b) (hbyte : e.byte? = some b) :
    PointsInto origin e where
  from_start := hstart
  to_end := by
    obtain ⟨hlt, -⟩ := List.getElem?_eq_some_iff.mp hat
    omega
  reported := fun c hc => by
    rw [hbyte] at hc
    cases hc
    exact hat
  missing := fun place needed he => by
    subst he
    cases hbyte

/-- Bytes that are reported as missing where they are. -/
theorem of_short {input : ByteInput} {needed : Nat} (h : input.rest.length < needed) :
    PointsInto input (.truncated input.offset needed) where
  from_start := Nat.le_refl _
  to_end := Nat.le_add_right _ _
  reported := fun _ hb => nomatch hb
  missing := fun _ _ he => by
    cases he
    omega

end PointsInto

/-- On what is left of `origin`, when that is fewer than `d` bytes, the
reader fails with errors that point into `origin` alone. -/
def Points (origin : ByteInput) (d : Nat) (r : ByteReader α) : Prop :=
  ∀ input : ByteInput, input.IsLeftOf origin → input.rest.length < d →
    ∀ e, r input = .error e → PointsInto origin e

/-- What a reader leaves is left of what it was given. -/
theorem Delimits.isLeftOf {r : ByteReader α} (hr : Delimits r) {input next : ByteInput} {a : α}
    (hok : r input = .ok (a, next)) : next.IsLeftOf input := by
  obtain ⟨own, rest, hrest, hown⟩ := hr input.offset input.rest a next hok
  have hok' : r ⟨input.offset, own ++ rest⟩ = .ok (a, next) := hrest ▸ hok
  obtain ⟨-, rfl⟩ := hown.eq hok'
  exact ⟨own, hrest, rfl⟩

namespace Points

variable {origin : ByteInput} {d : Nat}

theorem mono {r : ByteReader α} {c : Nat} (h : Points origin d r) (hc : c ≤ d) :
    Points origin c r :=
  fun input hleft hlen => h input hleft (Nat.lt_of_lt_of_le hlen hc)

theorem pure (a : α) : Points origin d (Pure.pure a) := by
  intro input _ _ e h
  cases h

/-- A reader that always fails must point right. -/
theorem throw {e : DecodeError} (he : PointsInto origin e) :
    Points origin d (throw e : ByteReader α) := by
  intro input _ _ e' h
  cases h
  exact he

/-- The second reader runs on what the first one left, which lies in the
input. -/
theorem bind {r : ByteReader α} {f : α → ByteReader β} (hr : Points origin d r)
    (htakes : Delimits r) (hf : ∀ a, Points origin d (f a)) : Points origin d (r >>= f) := by
  intro input hleft hlen e herror
  rw [bind_apply] at herror
  cases hs : r input with
  | error e' =>
      rw [hs] at herror
      cases herror
      exact hr input hleft hlen e hs
  | ok p =>
      obtain ⟨a, next⟩ := p
      rw [hs] at herror
      have hnext := htakes.isLeftOf hs
      exact hf a next (hnext.trans hleft) (Nat.lt_of_le_of_lt hnext.length_le hlen) e herror

/-- Where a reader stands is a place of the origin. -/
theorem offset_bind {f : Nat → ByteReader α}
    (h : ∀ start, origin.offset ≤ start → start ≤ origin.offset + origin.rest.length →
      Points origin d (f start)) : Points origin d (offset >>= f) := by
  intro input hleft hlen e herror
  obtain ⟨xs, hrest, hplace⟩ := id hleft
  have hsum : origin.rest.length = xs.length + input.rest.length := by
    rw [hrest, List.length_append]
  exact h input.offset (by omega) (by omega) input hleft hlen e herror

/-- A tag stands where the reader stood, and takes a byte. -/
theorem tag_bind {f : Nat → UInt8 → ByteReader α}
    (h : ∀ start tag, origin.offset ≤ start → origin.rest[start - origin.offset]? = some tag →
      Points origin d (f start tag)) :
    Points origin (d + 1) (offset >>= fun start => byte >>= f start) := by
  rintro ⟨start, rest⟩ hleft hlen e herror
  cases rest with
  | nil =>
      cases herror
      exact (PointsInto.of_short Nat.zero_lt_one).of_left hleft
  | cons tag rest =>
      have hat : origin.offset ≤ start ∧ origin.rest[start - origin.offset]? = some tag := by
        obtain ⟨xs, hrest, hplace⟩ := hleft
        dsimp only at hrest hplace
        subst hplace
        rw [hrest, Nat.add_sub_cancel_left]
        refine ⟨Nat.le_add_right _ _, ?_⟩
        rw [List.getElem?_append_right (Nat.le_refl _), Nat.sub_self]
        rfl
      exact h start tag hat.1 hat.2 ⟨start + 1, rest⟩ ((ByteInput.IsLeftOf.tail ..).trans hleft)
        (Nat.lt_of_succ_lt_succ hlen) e herror

/-- A family of readers, each with the bound that it gives itself. -/
theorem bounded {r : Nat → ByteReader α} (h : ∀ d, Points origin d (r d)) :
    Points origin d (bounded r) :=
  fun input hleft _ e herror => h _ input hleft (Nat.lt_succ_self _) e herror

-- ========================================================= operands

/-- A run of bytes that is too short is reported at the place where it
begins. -/
theorem take (n : Nat) : Points origin d (take n) := by
  intro input hleft _ e herror
  by_cases hn : input.rest.length < n
  · rw [ByteReader.take, split?_eq_none hn] at herror
    cases herror
    exact (PointsInto.of_short hn).of_left hleft
  · have hsplit : input.rest.take n ++ input.rest.drop n = input.rest := List.take_append_drop ..
    have hlen : (input.rest.take n).length = n := List.length_take_of_le (Nat.le_of_not_lt hn)
    have hok := take_reads (input.rest.take n) input.offset (input.rest.drop n)
    rw [hsplit, hlen] at hok
    rw [show ByteReader.take n input = _ from hok] at herror
    cases herror

theorem byte : Points origin d byte := by
  rintro ⟨start, rest⟩ hleft _ e herror
  cases rest with
  | nil =>
      cases herror
      exact (PointsInto.of_short Nat.zero_lt_one).of_left hleft
  | cons b rest => cases herror

theorem number (n : Nat) : Points origin d (number n) :=
  (take n).bind (.take n) fun _ => pure _

theorem utf8 (n : Nat) : Points origin d (utf8 n) := by
  refine offset_bind fun start hstart hend => (take n).bind (.take n) fun bytes => ?_
  split
  · exact pure _
  · exact throw (.of_place hstart hend rfl (by simp))

/-- The bytes of a name are taken and only then read as text. -/
theorem name : Points origin d name :=
  (number 2).bind (.number 2) fun n => utf8 n

/-- Each item runs on what the one before it left. -/
theorem times {r : ByteReader α} (h : Points origin d r) (htakes : Delimits r) (n : Nat) :
    Points origin d (times r n) := by
  induction n with
  | zero => exact pure []
  | succ n ih => exact h.bind htakes fun a => ih.bind (htakes.times n) fun rest => pure (a :: rest)

-- ============================================================ types

/-- A column given twice is reported where the columns begin, which is in
the input. -/
theorem columns {r : ByteReader DataType} (h : Points origin d r) (htakes : Delimits r)
    {start : Nat} (hstart : origin.offset ≤ start)
    (hend : start ≤ origin.offset + origin.rest.length) (n : Nat) (done : Heading) :
    Points origin d (columns r start n done) := by
  induction n generalizing done with
  | zero => exact pure done
  | succ n ih =>
      refine name.bind .name fun columnName => h.bind htakes fun columnType => ?_
      split
      · exact ih _
      · exact throw (.of_place hstart hend rfl (by simp))

theorem headingOf {r : ByteReader DataType} (h : Points origin d r) (htakes : Delimits r) :
    Points origin d (headingOf r) :=
  offset_bind fun _ hstart hend =>
    (number 2).bind (.number 2) fun count => h.columns htakes hstart hend count []

/-- Types point right, by induction on the depth they may have. -/
theorem typeWithin (d : Nat) : Points origin d (typeWithin d) := by
  induction d with
  | zero => exact fun _ _ hlen => absurd hlen (Nat.not_lt_zero _)
  | succ d ih =>
      have inner : Points origin d (ByteReader.headingOf (ByteReader.typeWithin d)) :=
        ih.headingOf (.typeWithin d)
      have takes : Delimits (ByteReader.headingOf (ByteReader.typeWithin d)) :=
        (Delimits.typeWithin d).headingOf
      refine tag_bind fun _ tag hstart hat => ?_
      split
      · exact pure _
      · exact pure _
      · exact pure _
      · exact pure _
      · exact pure _
      · exact inner.bind takes fun h => pure _
      · exact inner.bind takes fun h => pure _
      · refine name.bind .name fun typeName => inner.bind takes fun h => byte.bind .byte fun b => ?_
        split
        · exact pure _
        · exact ih.bind (.typeWithin d) fun parent => pure _
      · exact pure _
      · exact pure _
      · exact throw (.of_byte hstart hat rfl)

/-- A type that is too deep for its limit would need more bytes than there
are. -/
theorem type : Points origin d type :=
  bounded typeWithin

theorem heading : Points origin d heading :=
  type.headingOf .type

-- =========================================================== values

theorem decimal : Points origin d decimal :=
  (take 16).bind (.take 16) fun _ => pure _

theorem moment : Points origin d moment := by
  refine offset_bind fun start hstart hend => (number 8).bind (.number 8) fun ms => ?_
  split
  · exact pure _
  · exact throw (.of_place hstart hend rfl (by simp))

/-- Values point right, by induction on the depth they may have. -/
theorem valueWithin (d : Nat) : Points origin d (valueWithin d) := by
  induction d with
  | zero => exact fun _ _ hlen => absurd hlen (Nat.not_lt_zero _)
  | succ d ih =>
      refine tag_bind fun start tag hstart hat => ?_
      split
      · exact pure _
      · exact byte.bind .byte fun b => pure _
      · exact decimal.bind .decimal fun d => pure _
      · exact (number 4).bind (.number 4) fun n => (utf8 n).bind (.utf8 n) fun s => pure _
      · exact (number 4).bind (.number 4) fun n => (take n).bind (.take n) fun bytes => pure _
      · exact moment.bind .moment fun m => pure _
      · have field : Points origin d (ByteReader.name >>= fun n =>
            ByteReader.valueWithin d >>= fun v => Pure.pure (n, v)) :=
          name.bind .name fun fieldName => ih.bind (.valueWithin d) fun v => pure (fieldName, v)
        have takes : Delimits (ByteReader.name >>= fun n =>
            ByteReader.valueWithin d >>= fun v => Pure.pure (n, v)) :=
          Delimits.name.bind fun fieldName =>
            (Delimits.valueWithin d).bind fun v => .pure (fieldName, v)
        exact (number 2).bind (.number 2) fun n =>
          (field.times takes n).bind (takes.times n) fun fields => pure _
      · refine heading.bind .heading fun h => (number 4).bind (.number 4) fun n => ?_
        have takes := (Delimits.valueWithin d).times h.length
        exact ((ih.times (.valueWithin d) h.length).times takes n).bind (takes.times n)
          fun rows => pure _
      · exact heading.bind .heading fun h => pure _
      · exact throw (.of_byte hstart hat rfl)

/-- A value that is too deep for its limit would need more bytes than there
are. -/
theorem value : Points origin d value :=
  bounded valueWithin

/-- A byte that names no kind of segment is reported where it stands. -/
theorem segmentKind : Points origin d segmentKind := by
  refine (tag_bind fun start b hstart hat => ?_).mono (Nat.le_succ d)
  split
  · exact pure _
  · exact throw (.of_byte hstart hat rfl)

end Points

-- =========================================================== bodies

/-- A segment up to the end of its code, and where the code begins. -/
def segmentHead : ByteReader (CodeBlock × Nat) := do
  let segmentName ← name
  let kind ← segmentKind
  let accums ← number 2
  let flags ← byte
  let lookup ← heading
  let length ← number 4
  let start ← offset
  let code ← take length
  return ({ name := segmentName, kind, accums, flags := .ofBits flags.toNat, lookup, code }, start)

/-- A segment is its head and then its code, read inside the head's own
bytes. -/
theorem segmentOf_eq (r : ByteReader Instruction) :
    segmentOf r = segmentHead >>= fun p =>
      nested r p.2 p.1.code >>= fun body => pure (.loadSegment p.1 body) := by
  simp only [segmentOf, segmentHead, bind_assoc, pure_bind]

/-- Errors in the head of a segment point at its bytes. -/
theorem segmentHead_points {origin : ByteInput} {d : Nat} : Points origin d segmentHead := by
  refine .bind .name .name fun segmentName => .bind .segmentKind .segmentKind fun kind => ?_
  refine .bind (.number 2) (.number 2) fun accums => .bind .byte .byte fun flags => ?_
  refine .bind .heading .heading fun lookup => ?_
  refine .bind (.number 4) (.number 4) fun length => .offset_bind fun start _ _ => ?_
  exact .bind (.take length) (.take length) fun code => .pure _

/-- The code that a reader of a segment gives is a run of the bytes that
it was given, in its place. -/
def Encloses (r : ByteReader (CodeBlock × Nat)) : Prop :=
  ∀ (input next : ByteInput) (p : CodeBlock × Nat), r input = .ok (p, next) →
    (⟨p.2, p.1.code⟩ : ByteInput).IsWithin input

/-- What encloses code may stand behind anything of known length. -/
theorem Encloses.bind {r : ByteReader α} {f : α → ByteReader (CodeBlock × Nat)}
    (htakes : Delimits r) (hf : ∀ a, Encloses (f a)) : Encloses (r >>= f) := by
  intro input next p hok
  rw [bind_apply] at hok
  cases hs : r input with
  | error e =>
      rw [hs] at hok
      cases hok
  | ok q =>
      rw [hs] at hok
      exact (hf q.1 q.2 next p hok).trans (htakes.isLeftOf hs).isWithin

/-- Code is enclosed by the bytes that it is taken from. -/
theorem Encloses.code (n : Nat) (block : List UInt8 → CodeBlock)
    (hcode : ∀ code, (block code).code = code) :
    Encloses (offset >>= fun start => take n >>= fun code => pure (block code, start)) := by
  intro input next p hok
  have hok' : (take n >>= fun code => pure (block code, input.offset)) input = .ok (p, next) := hok
  rw [bind_apply] at hok'
  cases hs : take n input with
  | error e =>
      rw [hs] at hok'
      cases hok'
  | ok q =>
      obtain ⟨code, left⟩ := q
      rw [hs] at hok'
      cases hok'
      obtain ⟨xs, hrest, rfl, -⟩ := take_gives n input left code hs
      refine ⟨[], left.rest, ?_, rfl⟩
      rw [hcode]
      exact hrest

theorem segmentHead_encloses : Encloses segmentHead :=
  .bind .name fun _ => .bind .segmentKind fun _ => .bind (.number 2) fun _ => .bind .byte fun _ =>
    .bind .heading fun _ => .bind (.number 4) fun n => .code n _ fun _ => rfl

/-- The body that the first instruction of an input goes into, once
everything before it and all its bytes have been read. -/
def body? (input : ByteInput) : Option ByteInput :=
  match input.rest with
  | [] => none
  | b :: rest =>
    if Opcode.ofByte? b = some .loadSegment then
      match segmentHead ⟨input.offset + 1, rest⟩ with
      | .ok (p, _) => some ⟨p.2, p.1.code⟩
      | .error _ => none
    else none

/-- A failure of an input, and the innermost body that was being
decoded: the input itself, unless the instruction that fails has gone
into a body, whose failure it is then. -/
inductive FailsIn (e : DecodeError) : ByteInput → ByteInput → Prop where
  | here {input place : ByteInput} {k : Nat} {out : List Instruction} :
    times instruction k input = .ok (out, place) → instruction place = .error e →
      body? place = none → FailsIn e input input
  | inside {input place body last : ByteInput} {k : Nat} {out : List Instruction} :
    times instruction k input = .ok (out, place) → instruction place = .error e →
      body? place = some body → FailsIn e body last → FailsIn e input last

/-- The body of an instruction lies inside it and is shorter. -/
theorem body?_eq_some {input body : ByteInput} (h : body? input = some body) :
    body.IsWithin input ∧ body.rest.length < input.rest.length := by
  obtain ⟨place, bytes⟩ := input
  cases bytes with
  | nil => cases h
  | cons b rest =>
      unfold body? at h
      dsimp only at h
      split at h
      · split at h
        · rename_i p next hhead
          cases h
          have hwithin := segmentHead_encloses _ next p hhead
          obtain ⟨before, after, hrest, -⟩ := id hwithin
          refine ⟨hwithin.trans (ByteInput.IsLeftOf.tail place b rest).isWithin, ?_⟩
          have hlen := congrArg List.length hrest
          simp only [List.length_append] at hlen
          simp only [List.length_cons]
          omega
        · cases h
      · cases h

/-- Code that fails in a segment fails as a buffer in its place. -/
theorem nested_eq_error {d start : Nat} {code : List UInt8} {input : ByteInput} {e : DecodeError}
    (hd : code.length < d) (h : nested (instructionWithin d) start code input = .error e) :
    instructions ⟨start, code⟩ = .error e := by
  rw [nested_eq hd] at h
  rw [Instruction.instructions_at]
  have hall : Instruction.decodeAll code = (instructions ⟨0, code⟩).map Prod.fst := rfl
  rw [hall] at h
  cases hs : instructions ⟨0, code⟩ with
  | ok p =>
      rw [hs] at h
      cases h
  | error e' =>
      rw [hs] at h
      exact h

/-- A segment that fails points into what it was given before it has
its code, and after that the code is what fails. -/
theorem segmentOf_eq_error {place : Nat} {b : UInt8} {rest : List UInt8} {e : DecodeError}
    (hop : Opcode.ofByte? b = some .loadSegment)
    (h : segmentOf (instructionWithin (rest.length + 1)) ⟨place + 1, rest⟩ = .error e) :
    body? ⟨place, b :: rest⟩ = none ∧ PointsInto ⟨place, b :: rest⟩ e ∨
      ∃ body, body? ⟨place, b :: rest⟩ = some body ∧ instructions body = .error e := by
  -- the head of the segment may fail, and then there is no body yet
  rw [segmentOf_eq, bind_apply] at h
  cases hhead : segmentHead ⟨place + 1, rest⟩ with
  | error e' =>
      rw [hhead] at h
      cases h
      have hpoints := segmentHead_points _ (ByteInput.IsLeftOf.tail place b rest)
        (Nat.lt_succ_self _) e hhead
      exact .inl ⟨by simp only [body?, hop, hhead, if_pos], hpoints⟩
  | ok q =>
      obtain ⟨p, next⟩ := q
      rw [hhead] at h
      -- with its head read the segment has a body
      have hbody : body? ⟨place, b :: rest⟩ = some ⟨p.2, p.1.code⟩ := by
        simp only [body?, hop, hhead, if_pos]
      have hlen := (body?_eq_some hbody).2
      have hnested : (nested (instructionWithin (rest.length + 1)) p.2 p.1.code >>= fun body =>
          pure (Instruction.loadSegment p.1 body)) next = .error e := h
      rw [bind_apply] at hnested
      cases hcode : nested (instructionWithin (rest.length + 1)) p.2 p.1.code next with
      | ok out =>
          rw [hcode] at hnested
          cases hnested
      | error e' =>
          rw [hcode] at hnested
          cases hnested
          exact .inr ⟨_, hbody, nested_eq_error hlen hcode⟩

/-- A tag is read by a reader that knows where it stands. -/
theorem tag_apply {f : Nat → UInt8 → ByteReader α} (place : Nat) (b : UInt8) (rest : List UInt8) :
    (offset >>= fun start => byte >>= f start) ⟨place, b :: rest⟩ = f place b ⟨place + 1, rest⟩ :=
  rfl

/-- An instruction that fails points into what it was given, or is a
segment whose code fails. -/
theorem instruction_eq_error {input : ByteInput} {e : DecodeError}
    (h : instruction input = .error e) :
    body? input = none ∧ PointsInto input e ∨
      ∃ body, body? input = some body ∧ instructions body = .error e := by
  obtain ⟨place, bytes⟩ := input
  cases bytes with
  | nil =>
      cases h
      exact .inl ⟨rfl, .of_short Nat.zero_lt_one⟩
  | cons b rest =>
      -- every opcode but one reads operands alone
      have operands {r : ByteReader Instruction} {op : Option Opcode}
          (hop : Opcode.ofByte? b = op) (hother : op ≠ some .loadSegment)
          (hr : Points ⟨place, b :: rest⟩ (rest.length + 1) r)
          (herror : r ⟨place + 1, rest⟩ = .error e) :
          body? ⟨place, b :: rest⟩ = none ∧ PointsInto ⟨place, b :: rest⟩ e :=
        ⟨if_neg (hop ▸ hother), hr _ (.tail place b rest) (Nat.lt_succ_self _) e herror⟩
      have named (f : String → Instruction) :
          Points ⟨place, b :: rest⟩ (rest.length + 1) (name >>= fun n => pure (f n)) :=
        .bind .name .name fun n => .pure _
      have variadic (f : String → UInt8 → UInt8 → Instruction) :
          Points ⟨place, b :: rest⟩ (rest.length + 1) (name >>= fun callee =>
            byte >>= fun fixed => byte >>= fun more => pure (f callee fixed more)) :=
        .bind .name .name fun callee => .bind .byte .byte fun fixed =>
          .bind .byte .byte fun more => .pure _
      rw [instruction, bounded, instructionWithin, tag_apply] at h
      cases hop : Opcode.ofByte? b with
      | none =>
          rw [hop] at h
          have hat : (b :: rest)[place - place]? = some b := by
            rw [Nat.sub_self]
            rfl
          have hpoints : PointsInto ⟨place, b :: rest⟩ (.unknownOpcode place b) :=
            .of_byte (Nat.le_refl place) hat rfl
          exact .inl (operands hop nofun (.throw hpoints) h)
      | some op =>
          rw [hop] at h
          cases op with
          | loadSegment => exact segmentOf_eq_error hop h
          | finish => exact .inl (operands hop nofun (.pure _) h)
          | loadValue =>
              exact .inl (operands hop nofun (.bind .value .value fun v => .pure _) h)
          | loadCatalog | loadCatalogRef | loadField | loadComponent | loadTupleField =>
              exact .inl (operands hop nofun (named _) h)
          | loadAccumulators | loadLookup => exact .inl (operands hop nofun (.pure _) h)
          | call =>
              exact .inl (operands hop nofun
                (.bind .name .name fun callee => .bind .byte .byte fun arity => .pure _) h)
          | callVariadic | callVariadicTable =>
              exact .inl (operands hop nofun (variadic _) h)

-- ========================================================= failures

/-- A run of instructions fails where one of them fails. -/
theorem instructions_eq_error {input : ByteInput} {e : DecodeError}
    (h : instructions input = .error e) :
    ∃ k out place, times instruction k input = .ok (out, place) ∧ instruction place = .error e := by
  obtain ⟨offset, bytes⟩ := input
  -- the induction is on the number of bytes, since no instruction is empty
  induction hn : bytes.length using Nat.strongRecOn generalizing offset bytes with
  | ind n ih =>
      subst hn
      cases bytes with
      | nil => cases h
      -- the first instruction fails, or one of those behind it does
      | cons b bytes =>
          cases hi : instruction ⟨offset, b :: bytes⟩ with
          | error e' =>
              rw [instructions_cons, bind_apply, hi] at h
              cases h
              exact ⟨0, [], _, rfl, hi⟩
          | ok p =>
              obtain ⟨i, middle⟩ := p
              obtain ⟨own, rest, hbytes, hown⟩ := Delimits.instruction _ _ i middle hi
              have hpos := List.length_pos_iff.mpr hown.ne_nil
              rw [hbytes] at h ih ⊢
              rw [hown.instructions] at h
              cases hrest : instructions ⟨offset + own.length, rest⟩ with
              | ok q =>
                  rw [hrest] at h
                  cases h
              | error e' =>
                  rw [hrest] at h
                  cases h
                  have hlt : rest.length < (own ++ rest).length := by
                    rw [List.length_append]
                    omega
                  obtain ⟨k, out, place, hout, hplace⟩ := ih rest.length hlt _ rest hrest rfl
                  refine ⟨k + 1, i :: out, place, ?_, hplace⟩
                  rw [times, bind_apply, hown.whole rest]
                  show (times instruction k >>= _) _ = _
                  rw [bind_apply, hout]
                  rfl

/-- A failure is always one of some innermost body. -/
theorem exists_failsIn {input : ByteInput} {e : DecodeError} (h : instructions input = .error e) :
    ∃ last, FailsIn e input last := by
  induction hn : input.rest.length using Nat.strongRecOn generalizing input with
  | ind n ih =>
      subst hn
      obtain ⟨k, out, place, hout, hplace⟩ := instructions_eq_error h
      have hleft := (Delimits.instruction.times k).isLeftOf hout
      obtain ⟨hnone, -⟩ | ⟨body, hbody, hfails⟩ := instruction_eq_error hplace
      · exact ⟨input, .here hout hplace hnone⟩
      · have hlt := Nat.lt_of_lt_of_le (body?_eq_some hbody).2 hleft.length_le
        obtain ⟨last, hlast⟩ := ih _ hlt hfails rfl
        exact ⟨last, .inside hout hplace hbody hlast⟩

/-- The innermost body lies within the input, and the error points into
it. -/
theorem FailsIn.points {input last : ByteInput} {e : DecodeError} (h : FailsIn e input last) :
    last.IsWithin input ∧ PointsInto last e := by
  induction h with
  | @here input place k out hout hplace hnone =>
      have hleft := (Delimits.instruction.times k).isLeftOf hout
      obtain ⟨-, hpoints⟩ | ⟨body, hbody, -⟩ := instruction_eq_error hplace
      · exact ⟨.refl input, hpoints.of_left hleft⟩
      · rw [hnone] at hbody
        cases hbody
  | @inside input place body last k out hout _ hbody _ ih =>
      have hleft := (Delimits.instruction.times k).isLeftOf hout
      exact ⟨ih.1.trans ((body?_eq_some hbody).1.trans hleft.isWithin), ih.2⟩

end ByteReader

namespace Instruction

open ByteReader

/-- The error of a buffer points into the whole buffer, however deep
the segment in which it was found: its offset is a place of the buffer
or its end, and where it reports a byte, that byte stands there. It was
found in one innermost body, a run of bytes of the buffer in its place,
and when bytes are missing there are too few of them up to the end of
that body. -/
theorem decodeAll_error_points {bytes : List UInt8} {e : DecodeError}
    (h : decodeAll bytes = .error e) :
    e.offset ≤ bytes.length ∧
    (∀ b, e.byte? = some b → bytes[e.offset]? = some b) ∧
    (∃ last, FailsIn e ⟨0, bytes⟩ last) ∧
    ∀ last, FailsIn e ⟨0, bytes⟩ last →
      (∃ before after, bytes = before ++ last.rest ++ after ∧ last.offset = before.length) ∧
      last.offset ≤ e.offset ∧ e.offset ≤ last.offset + last.rest.length ∧
      ∀ place needed, e = .truncated place needed →
        last.offset + last.rest.length - place < needed := by
  -- decoding is running the instructions
  have hall : instructions ⟨0, bytes⟩ = .error e := by
    have hmap : (instructions ⟨0, bytes⟩).map Prod.fst = .error e := h
    cases hs : instructions ⟨0, bytes⟩ with
    | ok p =>
        rw [hs] at hmap
        cases hmap
    | error e' =>
        rw [hs] at hmap
        cases hmap
        rfl
  -- following the nesting leads to the innermost body; the error points into
  -- that
  obtain ⟨last, hlast⟩ := exists_failsIn hall
  obtain ⟨hwithin, hpoints⟩ := hlast.points
  obtain ⟨-, hend, hreported⟩ := hpoints.outward hwithin
  rw [Nat.zero_add] at hend
  -- and a body within another keeps its place in the buffer
  refine ⟨hend, hreported, ⟨last, hlast⟩, fun last hlast => ?_⟩
  obtain ⟨⟨before, after, hrest, hplace⟩, hpoints⟩ := hlast.points
  rw [Nat.zero_add] at hplace
  refine ⟨⟨before, after, hrest, hplace⟩, hpoints.from_start, hpoints.to_end, ?_⟩
  intro place needed he
  have hmissing := hpoints.missing place needed he
  have hto := hpoints.to_end
  subst he
  have : place ≤ last.offset + last.rest.length := hto
  omega

/-- A field name of five bytes at the end of a segment, with as many
bytes after the segment, and a value of an unknown tag in a segment
within a segment. -/
theorem decodeAll_error_points_in_segment :
    let short : List UInt8 := [8, 9, 0, 0, 1, 0, 0, 0, 0, 0, 0, 0, 0, 3, 4, 0, 5, 8, 8, 8, 8, 8]
    let tagged : List UInt8 := [9, 0, 0, 1, 0, 0, 0, 0, 0, 0, 0, 0, 15,
      9, 0, 0, 1, 0, 0, 0, 0, 0, 0, 0, 0, 2, 1, 99, 8]
    (decodeAll short = .error (.truncated 17 5) ∧ 17 ≤ short.length ∧
      ∃ last, FailsIn (.truncated 17 5) ⟨0, short⟩ last ∧
        last.offset ≤ 17 ∧ last.offset + last.rest.length - 17 < 5) ∧
    decodeAll tagged = .error (.badValueTag 27 99) ∧ tagged[27]? = some 99 := by
  intro short tagged
  have hshort : decodeAll short = .error (.truncated 17 5) := rfl
  have htagged : decodeAll tagged = .error (.badValueTag 27 99) := rfl
  obtain ⟨hend, -, ⟨last, hlast⟩, hall⟩ := decodeAll_error_points hshort
  obtain ⟨-, hstart, -, hmissing⟩ := hall last hlast
  exact ⟨⟨hshort, hend, last, hlast, hstart, hmissing 17 5 rfl⟩, htagged,
    (decodeAll_error_points htagged).2.1 99 rfl⟩

end Instruction

end RelQuery
