/-
Written data reads back: names, numbers, times, types and headings.

`Reads r bytes a` says that `r` takes exactly `bytes` from the front of
any input that begins with them, wherever the input stands in its
buffer and whatever follows, and gives `a`. Readers are put together
with `>>=`, and so are these facts: the bytes of the parts come one
after another, in the order in which they were written.

Writing loses one thing. A time is written as whole milliseconds, and a
leap second counts on into the next second, so that what is read is the
moment of that count (`Moment.cut?`). Where there is none, the reader
stops with a time out of range. `Settles` covers both outcomes.

A written chunk without a fault is `Chunk.ofBytes bytes`; each
constructor of chunks has a lemma that takes such an equation apart.
-/
import RelQuery.Code.Encode
import RelQuery.Proofs.Code.Reader
import RelQuery.Proofs.Value.Cut
import Mathlib.Tactic.Ring

namespace RelQuery

-- =========================================================== chunks

namespace Chunk

/-- A chunk results in its bytes if there are any. -/
theorem result_eq_ok {c : Chunk} {bytes : List UInt8} :
    c.result = .ok bytes ↔ c = ofBytes bytes := by
  obtain ⟨written, fault⟩ := c
  cases fault with
  | none => simp [result, ofBytes]
  | some e => simp [result, ofBytes]

/-- Two chunks make bytes if both do. -/
theorem append_eq_ofBytes {a b : Chunk} {bytes : List UInt8} :
    a ++ b = ofBytes bytes
      ↔ ∃ xs ys, a = ofBytes xs ∧ b = ofBytes ys ∧ bytes = xs ++ ys := by
  obtain ⟨xs, fault⟩ := a
  obtain ⟨ys, fault'⟩ := b
  cases fault with
  | some e =>
      constructor
      · intro h
        cases h
      · rintro ⟨xs', ys', h, -, -⟩
        cases h
  | none =>
      constructor
      · intro h
        cases h
        exact ⟨xs, ys, rfl, rfl, rfl⟩
      · rintro ⟨xs', ys', h, h', rfl⟩
        cases h
        cases h'
        rfl

theorem ofBytes_inj {xs ys : List UInt8} : ofBytes xs = ofBytes ys ↔ xs = ys := by
  simp [ofBytes]

theorem byte_eq_ofBytes {b : UInt8} {bytes : List UInt8} :
    byte b = ofBytes bytes ↔ bytes = [b] := by
  rw [byte, ofBytes_inj, eq_comm]

theorem fail_ne_ofBytes {e : EncodeError} {bytes : List UInt8} : fail e ≠ ofBytes bytes := by
  simp [fail, ofBytes]

/-- A number makes bytes if it fits. -/
theorem sized_eq_ofBytes {count n : Nat} {e : EncodeError} {bytes : List UInt8} :
    sized count n e = ofBytes bytes
      ↔ n < Nat.pow 256 count ∧ bytes = bigEndianBytes n count := by
  unfold sized
  by_cases h : n < Nat.pow 256 count
  · rw [if_pos h, ofBytes_inj, eq_comm]
    exact (and_iff_right h).symm
  · rw [if_neg h]
    exact iff_of_false fail_ne_ofBytes fun hboth => h hboth.1

end Chunk

namespace ByteReader

variable {α β : Type}

-- ========================================== reading what was written

/-- The reader takes exactly these bytes and gives the value. -/
def Reads (r : ByteReader α) (bytes : List UInt8) (a : α) : Prop :=
  ∀ offset rest,
    r ⟨offset, bytes ++ rest⟩ = .ok (a, ⟨offset + bytes.length, rest⟩)

/-- The reader finds a time out of range among these bytes. -/
def Stops (r : ByteReader α) (bytes : List UInt8) : Prop :=
  ∀ offset rest, ∃ place,
    r ⟨offset, bytes ++ rest⟩ = .error (.badTime place)

/-- The reader takes exactly these bytes and gives the value, or finds
a time out of range where there is none to give. -/
def Settles (r : ByteReader α) (bytes : List UInt8) : Option α → Prop
  | some a => Reads r bytes a
  | none => Stops r bytes

theorem Reads.pure (a : α) : Reads (pure a) [] a := by
  intro offset rest
  rfl

/-- Readers follow each other as the bytes that they read do. -/
theorem Reads.bind {r : ByteReader α} {f : α → ByteReader β} {a : α} {b : β}
    {xs ys : List UInt8} (hr : Reads r xs a) (hf : Reads (f a) ys b) :
    Reads (r >>= f) (xs ++ ys) b := by
  intro offset rest
  rw [bind_apply, List.append_assoc, hr offset (ys ++ rest)]
  show f a ⟨offset + xs.length, ys ++ rest⟩ = _
  rw [hf, List.length_append, Nat.add_assoc]

/-- Readers settle one after the other, the second on what the first one
gave. -/
theorem Settles.bind {r : ByteReader α} {f : α → ByteReader β} {o : Option α}
    {p : α → Option β} {xs ys : List UInt8} (hr : Settles r xs o)
    (hf : ∀ a, o = some a → Settles (f a) ys (p a)) :
    Settles (r >>= f) (xs ++ ys) (o.bind p) := by
  cases o with
  | none =>
      intro offset rest
      obtain ⟨place, hplace⟩ := hr offset (ys ++ rest)
      refine ⟨place, ?_⟩
      rw [bind_apply, List.append_assoc, hplace]
      rfl
  | some a =>
      have hfa := hf a rfl
      rw [Option.bind_some]
      cases hb : p a with
      | some b =>
          rw [hb] at hfa
          exact Reads.bind hr hfa
      | none =>
          rw [hb] at hfa
          intro offset rest
          obtain ⟨place, hplace⟩ := hfa (offset + xs.length) rest
          refine ⟨place, ?_⟩
          rw [bind_apply, List.append_assoc, hr offset (ys ++ rest)]
          exact hplace

/-- A first step whose outcome is sure. -/
theorem Reads.then {r : ByteReader α} {f : α → ByteReader β} {a : α} {o : Option β}
    {xs ys : List UInt8} (hr : Reads r xs a) (hf : Settles (f a) ys o) :
    Settles (r >>= f) (xs ++ ys) o :=
  Settles.bind (o := some a) (p := fun _ => o) hr fun _ h => Option.some.inj h ▸ hf

/-- A sure step before one that takes no bytes. -/
theorem Reads.then_nil {r : ByteReader α} {f : α → ByteReader β} {a : α} {o : Option β}
    {xs : List UInt8} (hr : Reads r xs a) (hf : Settles (f a) [] o) : Settles (r >>= f) xs o := by
  have h := hr.then hf
  rwa [List.append_nil] at h

/-- A last step that takes no bytes. -/
theorem Settles.map {r : ByteReader α} {o : Option α} {xs : List UInt8}
    (hr : Settles r xs o) (f : α → β) :
    Settles (r >>= fun x => Pure.pure (f x)) xs (o.map f) := by
  have h := hr.bind (f := fun x => Pure.pure (f x)) (p := fun a => some (f a))
    fun a _ => Reads.pure (f a)
  rw [List.append_nil] at h
  rw [Option.map_eq_bind]
  exact h

theorem Reads.map {r : ByteReader α} {a : α} {xs : List UInt8} (hr : Reads r xs a) (f : α → β) :
    Reads (r >>= fun x => Pure.pure (f x)) xs (f a) :=
  Settles.map (o := some a) hr f

/-- Where a reader starts does not decide what it settles. -/
theorem Settles.offset_bind {f : Nat → ByteReader α} {xs : List UInt8} {o : Option α}
    (h : ∀ start, Settles (f start) xs o) : Settles (offset >>= f) xs o := by
  cases o with
  | none =>
      intro offset rest
      exact h offset offset rest
  | some a =>
      intro offset rest
      exact h offset offset rest

/-- A bound on the depth settles like any that is above the number of
bytes. -/
theorem Settles.bounded {r : Nat → ByteReader α} {xs : List UInt8} {o : Option α}
    (h : ∀ n, xs.length < n → Settles (r n) xs o) : Settles (bounded r) xs o := by
  have enough : ∀ rest : List UInt8, xs.length < (xs ++ rest).length + 1 := by
    intro rest
    rw [List.length_append]
    omega
  cases o with
  | none =>
      intro offset rest
      exact h _ (enough rest) offset rest
  | some a =>
      intro offset rest
      exact h _ (enough rest) offset rest

-- ===================================================== raw operands

/-- As many bytes as there are in front are split off. -/
theorem split?_append (xs rest : List α) :
    split? xs.length (xs ++ rest) = some (xs, rest) := by
  induction xs with
  | nil => rfl
  | cons x xs ih =>
      rw [List.length_cons, List.cons_append, split?, ih]
      rfl

theorem take_reads (xs : List UInt8) : Reads (take xs.length) xs xs := by
  intro offset rest
  rw [take, split?_append]

theorem byte_reads (b : UInt8) : Reads byte [b] b := by
  intro offset rest
  rfl

/-- A number takes the bytes that it is given. -/
theorem length_bigEndianBytes (n count : Nat) :
    (Chunk.bigEndianBytes n count).length = count := by
  induction count with
  | zero => rfl
  | succ count ih => rw [Chunk.bigEndianBytes, List.length_cons, ih]

/-- The fold behind `ofBigEndian`, from any number read so far. -/
theorem foldl_bigEndianBytes (n count acc : Nat) :
    (Chunk.bigEndianBytes n count).foldl (fun m b => m * 256 + b.toNat) acc
      = acc * 256 ^ count + n % 256 ^ count := by
  induction count generalizing acc with
  | zero => simp [Chunk.bigEndianBytes, Nat.mod_one]
  | succ count ih =>
      have hpow : Nat.pow 256 count = 256 ^ count := rfl
      rw [Chunk.bigEndianBytes, hpow, List.foldl_cons, ih, UInt8.toNat_ofNat',
        Nat.mod_pow_succ (b := 256), Nat.pow_succ]
      ring

/-- A number that fits its bytes is read back. -/
theorem number_reads {n count : Nat} (h : n < 256 ^ count) :
    Reads (number count) (Chunk.bigEndianBytes n count) n := by
  have ht := take_reads (Chunk.bigEndianBytes n count)
  rw [length_bigEndianBytes] at ht
  have hn : ofBigEndian (Chunk.bigEndianBytes n count) = n := by
    rw [ofBigEndian, foldl_bigEndianBytes, Nat.zero_mul, Nat.zero_add, Nat.mod_eq_of_lt h]
  have hr := ht.map ofBigEndian
  rwa [hn] at hr

theorem sized_reads {count n : Nat} {e : EncodeError} {bytes : List UInt8}
    (h : Chunk.sized count n e = .ofBytes bytes) : Reads (number count) bytes n := by
  obtain ⟨hn, rfl⟩ := Chunk.sized_eq_ofBytes.mp h
  exact number_reads hn

/-- Text is read back from its bytes. -/
theorem utf8_reads (s : String) :
    Reads (utf8 (Chunk.utf8 s).length) (Chunk.utf8 s) s := by
  refine Settles.offset_bind (o := some s) fun start => ?_
  have hs : String.fromUTF8? ⟨(Chunk.utf8 s).toArray⟩ = some s := by
    simp [Chunk.utf8, String.fromUTF8?, s.isValidUTF8]
    rfl
  refine (take_reads (Chunk.utf8 s)).then_nil ?_
  rw [hs]
  exact Reads.pure s

/-- A name is read back from its length and its bytes. -/
theorem name_reads {s : String} {bytes : List UInt8} (h : Chunk.name s = .ofBytes bytes) :
    Reads name bytes s := by
  obtain ⟨xs, ys, hx, hy, rfl⟩ := Chunk.append_eq_ofBytes.mp h
  rw [Chunk.ofBytes_inj] at hy
  subst hy
  exact (sized_reads hx).bind (utf8_reads s)

-- ============================================================ types

/-- A tag and what follows it. -/
theorem tag_settles {f : Nat → UInt8 → ByteReader α} (tag : UInt8) {xs : List UInt8}
    {o : Option α} (h : ∀ start, Settles (f start tag) xs o) :
    Settles (offset >>= fun start => byte >>= f start) (tag :: xs) o :=
  Settles.offset_bind fun start => (byte_reads tag).then (h start)

/-- Written columns read back onto the columns before them, given that
their types do. -/
theorem columns_reads {r : ByteReader DataType} {cs : List Column} {bytes : List UInt8}
    (he : DataType.encodeColumns cs = .ofBytes bytes)
    (htypes : ∀ c ∈ cs, ∀ xs, c.type.encode = .ofBytes xs → xs.length ≤ bytes.length →
      Reads r xs c.type)
    (start : Nat) (done : Heading) (hnodup : (Heading.names (done ++ cs)).Nodup) :
    Reads (columns r start cs.length done) bytes (done ++ cs) := by
  induction cs generalizing bytes done with
  | nil =>
      cases Chunk.ofBytes_inj.mp he
      rw [List.append_nil]
      exact Reads.pure done
  | cons c cs ih =>
      obtain ⟨name, t⟩ := c
      obtain ⟨xs, rest, hname, hrest, rfl⟩ := Chunk.append_eq_ofBytes.mp he
      obtain ⟨ys, zs, ht, hcs, rfl⟩ := Chunk.append_eq_ofBytes.mp hrest
      simp only [List.length_append] at htypes
      have hfree : name ∉ done.names := by
        rw [Heading.names_append, List.nodup_append] at hnodup
        intro hmem
        exact hnodup.2.2 name hmem name List.mem_cons_self rfl
      have hpush : Heading.push done ⟨name, t⟩ = .ok (done ++ [⟨name, t⟩]) :=
        Heading.push_eq_ok.mpr ⟨hfree, rfl⟩
      have hread := htypes ⟨name, t⟩ List.mem_cons_self ys ht (by omega)
      rw [List.append_cons] at hnodup ⊢
      refine (name_reads hname).bind (hread.bind ?_)
      rw [hpush]
      refine ih hcs (fun c hc xs hxs hlen => ?_) _ hnodup
      exact htypes c (List.mem_cons_of_mem _ hc) xs hxs (by omega)

/-- A written heading reads back, given that the types of its columns
do. -/
theorem headingOf_reads {r : ByteReader DataType} {h : Heading} {bytes : List UInt8}
    (he : .length16 h.length "heading" ++ DataType.encodeColumns h = Chunk.ofBytes bytes)
    (hnodup : h.names.Nodup)
    (htypes : ∀ c ∈ h, ∀ xs, c.type.encode = .ofBytes xs → xs.length ≤ bytes.length →
      Reads r xs c.type) :
    Reads (headingOf r) bytes h := by
  obtain ⟨xs, ys, hx, hy, rfl⟩ := Chunk.append_eq_ofBytes.mp he
  refine Settles.offset_bind (o := some h) fun start => ?_
  refine (sized_reads hx).bind (columns_reads hy (fun c hc zs hzs hlen => ?_) start [] hnodup)
  rw [List.length_append] at htypes
  exact htypes c hc zs hzs (by omega)

mutual

/-- A written type reads back, at any bound above its length. -/
theorem typeWithin_reads : ∀ (t : DataType) {bytes : List UInt8}, t.encode = .ofBytes bytes →
    t.namesDistinct = true → ∀ {n : Nat}, bytes.length < n → Reads (typeWithin n) bytes t
  -- a plain type is its tag
  | .bool, _, h, _, n + 1, _ => by
      cases Chunk.byte_eq_ofBytes.mp h
      exact tag_settles (o := some _) 0 fun _ => Reads.pure DataType.bool
  | .number, _, h, _, n + 1, _ => by
      cases Chunk.byte_eq_ofBytes.mp h
      exact tag_settles (o := some _) 1 fun _ => Reads.pure DataType.number
  | .text, _, h, _, n + 1, _ => by
      cases Chunk.byte_eq_ofBytes.mp h
      exact tag_settles (o := some _) 2 fun _ => Reads.pure DataType.text
  | .binary, _, h, _, n + 1, _ => by
      cases Chunk.byte_eq_ofBytes.mp h
      exact tag_settles (o := some _) 3 fun _ => Reads.pure DataType.binary
  | .time, _, h, _, n + 1, _ => by
      cases Chunk.byte_eq_ofBytes.mp h
      exact tag_settles (o := some _) 4 fun _ => Reads.pure DataType.time
  -- the tag is a byte, so the bound of the columns is still above their length
  | .tuple h, _, he, hd, n + 1, hn => by
      obtain ⟨tag, rest, htag, hrest, rfl⟩ := Chunk.append_eq_ofBytes.mp he
      cases Chunk.byte_eq_ofBytes.mp htag
      rw [DataType.namesDistinct, Bool.and_eq_true, decide_eq_true_eq] at hd
      simp only [List.length_append, List.length_singleton] at hn
      refine tag_settles (o := some _) 5 fun start => ?_
      refine (headingOf_reads hrest hd.1 fun c hc xs hxs hlen => ?_).map DataType.tuple
      exact columnTypes_read h hd.2 c hc hxs (by omega)
  | .relation h, _, he, hd, n + 1, hn => by
      obtain ⟨tag, rest, htag, hrest, rfl⟩ := Chunk.append_eq_ofBytes.mp he
      cases Chunk.byte_eq_ofBytes.mp htag
      rw [DataType.namesDistinct, Bool.and_eq_true, decide_eq_true_eq] at hd
      simp only [List.length_append, List.length_singleton] at hn
      refine tag_settles (o := some _) 6 fun start => ?_
      refine (headingOf_reads hrest hd.1 fun c hc xs hxs hlen => ?_).map DataType.relation
      exact columnTypes_read h hd.2 c hc hxs (by omega)
  | .user ⟨name, h, parent⟩, _, he, hd, n + 1, hn => by
      obtain ⟨tag, rest, htag, hrest, rfl⟩ := Chunk.append_eq_ofBytes.mp he
      cases Chunk.byte_eq_ofBytes.mp htag
      obtain ⟨xs, tail, hname, htail, rfl⟩ := Chunk.append_eq_ofBytes.mp hrest
      obtain ⟨ys, zs, hh, hparent, rfl⟩ := Chunk.append_eq_ofBytes.mp htail
      rw [DataType.namesDistinct, Bool.and_eq_true, Bool.and_eq_true, decide_eq_true_eq] at hd
      simp only [List.length_append, List.length_singleton] at hn
      refine tag_settles (o := some _) 7 fun start => ?_
      refine (name_reads hname).bind ?_
      refine (headingOf_reads hh hd.1.1 fun c hc xs hxs hlen => ?_).bind ?_
      · exact columnTypes_read h hd.1.2 c hc hxs (by omega)
      · -- the byte that tells whether there is a supertype
        cases parent with
        | none =>
            cases Chunk.byte_eq_ofBytes.mp hparent
            exact (byte_reads 0).bind (Reads.pure _)
        | some t =>
            obtain ⟨marker, ts, hmarker, ht, rfl⟩ := Chunk.append_eq_ofBytes.mp hparent
            cases Chunk.byte_eq_ofBytes.mp hmarker
            rw [List.length_append] at hn
            refine (byte_reads 1).bind ?_
            exact (typeWithin_reads t ht hd.2 (by omega)).map _
  | .code, _, h, _, n + 1, _ => by
      cases Chunk.byte_eq_ofBytes.mp h
      exact tag_settles (o := some _) 8 fun _ => Reads.pure DataType.code
  | .void, _, h, _, n + 1, _ => by
      cases Chunk.byte_eq_ofBytes.mp h
      exact tag_settles (o := some _) 9 fun _ => Reads.pure DataType.void
  -- a placeholder is not written at all
  | .unknown, _, he, _, _, _ => absurd he Chunk.fail_ne_ofBytes
  | .table, _, he, _, _, _ => absurd he Chunk.fail_ne_ofBytes
  | .row, _, he, _, _, _ => absurd he Chunk.fail_ne_ofBytes
  | .ordered, _, he, _, _, _ => absurd he Chunk.fail_ne_ofBytes
  | .ordinal, _, he, _, _, _ => absurd he Chunk.fail_ne_ofBytes
  | .any, _, he, _, _, _ => absurd he Chunk.fail_ne_ofBytes

/-- The types of written columns read back. -/
theorem columnTypes_read : ∀ (cs : List Column), DataType.columnsDistinct cs = true →
    ∀ c ∈ cs, ∀ {bytes : List UInt8}, c.type.encode = .ofBytes bytes →
      ∀ {n : Nat}, bytes.length < n → Reads (typeWithin n) bytes c.type
  | ⟨name, t⟩ :: cs, hd, c, hc, _, he, _, hn => by
      rw [DataType.columnsDistinct, Bool.and_eq_true] at hd
      rcases List.mem_cons.mp hc with rfl | hc
      · exact typeWithin_reads t he hd.1 hn
      · exact columnTypes_read cs hd.2 c hc he hn

end

/-- A heading is read back if no name occurs in it twice. -/
theorem heading_reads {h : Heading} {bytes : List UInt8} (he : Heading.encode h = .ofBytes bytes)
    (hd : h.namesDistinct = true) : Reads heading bytes h := by
  rw [Heading.namesDistinct, Bool.and_eq_true, decide_eq_true_eq] at hd
  refine headingOf_reads he hd.1 fun c hc xs hxs _ => ?_
  exact Settles.bounded (o := some _) fun _ hn => columnTypes_read h hd.2 c hc hxs hn

-- =========================================================== values

theorem length_toBytes (d : Decimal) : d.toBytes.length = 16 := by
  simp [Decimal.toBytes, Decimal.littleEndian]

/-- A decimal is read back from its bytes, part by part. -/
theorem decimal_reads (d : Decimal) : Reads decimal d.toBytes d := by
  have ht := take_reads d.toBytes
  rw [length_toBytes] at ht
  have h := ht.map fun bytes => Decimal.ofBytes (bytes.take 4) (bytes.drop 4)
  rw [Decimal.ofBytes_toBytes] at h
  exact h

/-- Two's complement keeps what fits in 64 bits with a sign. -/
theorem signed64_toNat_emod {i : Int} (hlow : -0x8000000000000000 ≤ i)
    (hhigh : i < 0x8000000000000000) : signed64 (i % 0x10000000000000000).toNat = i := by
  unfold signed64
  split
  · omega
  · omega

/-- A moment settles as what is left of it in whole milliseconds. -/
theorem moment_settles {m : Moment} {bytes : List UInt8} (he : m.encode = .ofBytes bytes)
    (hm : m.isValid = true) : Settles moment bytes m.cut? := by
  cases Chunk.ofBytes_inj.mp he
  obtain ⟨hlow, hhigh⟩ := Moment.toMillis_bounds hm
  refine Settles.offset_bind fun start => (number_reads (by omega)).then_nil ?_
  rw [signed64_toNat_emod hlow hhigh]
  cases hcut : m.cut? with
  | some c =>
      rw [Moment.cut?] at hcut
      rw [hcut]
      exact Reads.pure c
  | none =>
      rw [Moment.cut?] at hcut
      rw [hcut]
      exact fun _ _ => ⟨start, rfl⟩

mutual

/-- A written value reads back with its times cut, at any bound above
its length. -/
theorem valueWithin_settles : ∀ (v : Value) {bytes : List UInt8}, v.encode = .ofBytes bytes →
    v.isWellFormed = true → ∀ {n : Nat}, bytes.length < n → Settles (valueWithin n) bytes v.cut?
  -- the tag tells the constructor; what follows it is written in the order of
  -- the fields
  | .void, _, he, _, n + 1, _ => by
      cases Chunk.byte_eq_ofBytes.mp he
      exact tag_settles (o := some _) 0 fun _ => Reads.pure Value.void
  | .bool b, _, he, _, n + 1, _ => by
      obtain ⟨tag, rest, htag, hrest, rfl⟩ := Chunk.append_eq_ofBytes.mp he
      cases Chunk.byte_eq_ofBytes.mp htag
      cases Chunk.byte_eq_ofBytes.mp hrest
      refine tag_settles (o := some _) 1 fun _ => ?_
      cases b with
      | false => exact (byte_reads 0).map fun b => Value.bool (b != 0)
      | true => exact (byte_reads 1).map fun b => Value.bool (b != 0)
  -- these hold no moment and are read back as they are
  | .number d, _, he, _, n + 1, _ => by
      obtain ⟨tag, rest, htag, hrest, rfl⟩ := Chunk.append_eq_ofBytes.mp he
      cases Chunk.byte_eq_ofBytes.mp htag
      cases Chunk.ofBytes_inj.mp hrest
      exact tag_settles (o := some _) 2 fun _ => (decimal_reads d).map Value.number
  | .text s, _, he, _, n + 1, _ => by
      obtain ⟨tag, rest, htag, hrest, rfl⟩ := Chunk.append_eq_ofBytes.mp he
      cases Chunk.byte_eq_ofBytes.mp htag
      obtain ⟨length, text, hlength, htext, rfl⟩ := Chunk.append_eq_ofBytes.mp hrest
      cases Chunk.ofBytes_inj.mp htext
      refine tag_settles (o := some _) 3 fun _ => ?_
      exact (sized_reads hlength).bind ((utf8_reads s).map Value.text)
  | .binary bs, _, he, _, n + 1, _ => by
      obtain ⟨tag, rest, htag, hrest, rfl⟩ := Chunk.append_eq_ofBytes.mp he
      cases Chunk.byte_eq_ofBytes.mp htag
      obtain ⟨length, content, hlength, hcontent, rfl⟩ := Chunk.append_eq_ofBytes.mp hrest
      cases Chunk.ofBytes_inj.mp hcontent
      refine tag_settles (o := some _) 4 fun _ => ?_
      exact (sized_reads hlength).bind ((take_reads bs).map Value.binary)
  | .time m, _, he, hv, n + 1, _ => by
      obtain ⟨tag, rest, htag, hrest, rfl⟩ := Chunk.append_eq_ofBytes.mp he
      cases Chunk.byte_eq_ofBytes.mp htag
      exact tag_settles 5 fun _ => (moment_settles hrest hv).map Value.time
  -- the tag and the length take bytes, so the bound of the cells is above theirs
  | .tuple fields, _, he, hv, n + 1, hn => by
      obtain ⟨tag, rest, htag, hrest, rfl⟩ := Chunk.append_eq_ofBytes.mp he
      cases Chunk.byte_eq_ofBytes.mp htag
      obtain ⟨length, content, hlength, hcontent, rfl⟩ := Chunk.append_eq_ofBytes.mp hrest
      simp only [List.length_append, List.length_singleton] at hn
      refine tag_settles 6 fun _ => (sized_reads hlength).then ?_
      exact (fields_settle fields hcontent hv (by omega)).map Value.tuple
  | .relation h rows, _, he, hv, n + 1, hn => by
      obtain ⟨tag, rest, htag, hrest, rfl⟩ := Chunk.append_eq_ofBytes.mp he
      cases Chunk.byte_eq_ofBytes.mp htag
      obtain ⟨columns, tail, hcolumns, htail, rfl⟩ := Chunk.append_eq_ofBytes.mp hrest
      obtain ⟨length, content, hlength, hcontent, rfl⟩ := Chunk.append_eq_ofBytes.mp htail
      simp only [List.length_append, List.length_singleton] at hn
      rw [Value.isWellFormed, Bool.and_eq_true] at hv
      refine tag_settles 7 fun _ => (heading_reads hcolumns hv.1).then ?_
      refine (sized_reads hlength).then ?_
      exact (rows_settle rows hcontent hv.2 (by omega)).map (Value.relation h)
  | .heading h, _, he, hv, n + 1, _ => by
      obtain ⟨tag, rest, htag, hrest, rfl⟩ := Chunk.append_eq_ofBytes.mp he
      cases Chunk.byte_eq_ofBytes.mp htag
      exact tag_settles (o := some _) 8 fun _ => (heading_reads hrest hv).map Value.heading

theorem fields_settle : ∀ (fields : List (String × Value)) {bytes : List UInt8},
    Value.encodeFields fields = .ofBytes bytes → Value.fieldsWellFormed fields = true →
      ∀ {n : Nat}, bytes.length < n →
        Settles (times (name >>= fun s => valueWithin n >>= fun v => pure (s, v)) fields.length)
          bytes (Value.cutFields? fields)
  | [], _, he, _, _, _ => by
      cases Chunk.ofBytes_inj.mp he
      exact Reads.pure []
  | (s, v) :: rest, _, he, hv, n, hn => by
      obtain ⟨xs, tail, hname, htail, rfl⟩ := Chunk.append_eq_ofBytes.mp he
      obtain ⟨ys, zs, hvalue, hrest, rfl⟩ := Chunk.append_eq_ofBytes.mp htail
      simp only [List.length_append] at hn
      rw [Value.fieldsWellFormed, Bool.and_eq_true] at hv
      have hfirst := (name_reads hname).then
        (f := fun s => valueWithin n >>= fun v => pure (s, v))
        ((valueWithin_settles v hvalue hv.1 (by omega)).map fun v => (s, v))
      have h := hfirst.bind (p := fun f => (Value.cutFields? rest).map fun rest => f :: rest)
        fun f _ => (fields_settle rest hrest hv.2 (n := n) (by omega)).map _
      rw [Option.bind_map, List.append_assoc] at h
      exact h

/-- The rows of a relation settle one after the other, all of the same
width. -/
theorem rows_settle {width : Nat} : ∀ (rows : List (List Value)) {bytes : List UInt8},
    Value.encodeRows rows = .ofBytes bytes → Value.rowsWellFormed width rows = true →
      ∀ {n : Nat}, bytes.length < n →
        Settles (times (times (valueWithin n) width) rows.length) bytes (Value.cutRows? rows)
  | [], _, he, _, _, _ => by
      cases Chunk.ofBytes_inj.mp he
      exact Reads.pure []
  | row :: rest, _, he, hv, n, hn => by
      obtain ⟨xs, ys, hrow, hrest, rfl⟩ := Chunk.append_eq_ofBytes.mp he
      rw [List.length_append] at hn
      rw [Value.rowsWellFormed, Bool.and_eq_true, Bool.and_eq_true, beq_iff_eq] at hv
      obtain ⟨⟨rfl, hcells⟩, hrows⟩ := hv
      refine (cells_settle row hrow hcells (by omega)).bind fun cells _ => ?_
      exact (rows_settle rest hrest hrows (by omega)).map _

theorem cells_settle : ∀ (cells : List Value) {bytes : List UInt8},
    Value.encodeCells cells = .ofBytes bytes → Value.cellsWellFormed cells = true →
      ∀ {n : Nat}, bytes.length < n →
        Settles (times (valueWithin n) cells.length) bytes (Value.cutCells? cells)
  | [], _, he, _, _, _ => by
      cases Chunk.ofBytes_inj.mp he
      exact Reads.pure []
  | v :: rest, _, he, hv, n, hn => by
      obtain ⟨xs, ys, hvalue, hrest, rfl⟩ := Chunk.append_eq_ofBytes.mp he
      rw [List.length_append] at hn
      rw [Value.cellsWellFormed, Bool.and_eq_true] at hv
      refine (valueWithin_settles v hvalue hv.1 (by omega)).bind fun v _ => ?_
      exact (cells_settle rest hrest hv.2 (by omega)).map _

end

theorem value_settles {v : Value} {bytes : List UInt8} (he : v.encode = .ofBytes bytes)
    (hv : v.isWellFormed = true) : Settles value bytes v.cut? :=
  Settles.bounded fun _ hn => valueWithin_settles v he hv hn

end ByteReader

end RelQuery
