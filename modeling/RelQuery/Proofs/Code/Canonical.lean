/-
Whatever decodes can be written again.

Decoding accepts more than encoding produces. Any byte but zero tells
that a truth value holds or that a supertype follows; of the flags of a
segment three bits count; of the flags of a decimal number a sign and
five bits of scale, and a scale past 28 is brought down to it.
`Normalises` lists these leniencies and nothing else: it relates the
bytes that were read to those that are written for the same data.

`Gives r Q` is what a reader says after the fact: whatever bytes it
took, `Q` holds of them and of the value it gave. The facts are put
together with `>>=` as the readers are, so that each reader is followed
once. What is read is also well formed (names distinct, one cell per
column, times whole milliseconds), which is all that the round trip of
written code asks for. The code inside a segment is kept as raw bytes
and is written as it was read.
-/
import RelQuery.Proofs.Code.RoundTrip

namespace RelQuery

-- ======================================================= leniencies

/-- The second list is the first one with every byte that has a
choice of spellings in its canonical one. -/
inductive Normalises : List UInt8 → List UInt8 → Prop
  | refl (bytes : List UInt8) : Normalises bytes bytes
  /-- A truth value, or the marker before a supertype. -/
  | truth {b : UInt8} (h : b ≠ 0) : Normalises [b] [1]
  /-- The flags of a segment: three bits count. -/
  | flags (b : UInt8) : Normalises [b] [UInt8.ofNat (b.toNat % 8)]
  /-- The flags of a number: a scale of at most 28 and a sign count. -/
  | decimalFlags {a b scale sign : UInt8} (h : scale.toNat % 32 ≤ 28) :
      Normalises [a, b, scale, sign]
        [0, 0, UInt8.ofNat (scale.toNat % 32), if 128 ≤ sign.toNat then 128 else 0]
  /-- A number whose scale is 29 to 31 is brought down to 28. -/
  | decimalScale {a b scale sign : UInt8} {mantissa : List UInt8} (h : 28 < scale.toNat % 32)
      (hlen : mantissa.length = 12) :
      Normalises ([a, b, scale, sign] ++ mantissa)
        (Decimal.ofBytes [a, b, scale, sign] mantissa).toBytes
  | append {xs ys xs' ys' : List UInt8} (h : Normalises xs xs') (h' : Normalises ys ys') :
      Normalises (xs ++ ys) (xs' ++ ys')

/-- Normalising keeps the number of bytes. -/
theorem Normalises.length_eq {xs ys : List UInt8} (h : Normalises xs ys) :
    ys.length = xs.length := by
  induction h with
  | refl bytes => rfl
  | truth h => rfl
  | flags b => rfl
  | decimalFlags h => rfl
  | decimalScale h hlen => rw [ByteReader.length_toBytes, List.length_append, hlen]; rfl
  | append h h' ih ih' => rw [List.length_append, List.length_append, ih, ih']

/-- The chunk is written without a fault, and these bytes are a
spelling of it. -/
def Chunk.Spells (c : Chunk) (xs : List UInt8) : Prop :=
  ∃ ys, c = .ofBytes ys ∧ Normalises xs ys

namespace Chunk.Spells

theorem bytes (xs : List UInt8) : Spells (.ofBytes xs) xs :=
  ⟨xs, rfl, .refl xs⟩

/-- Two chunks are spelled one after the other. -/
theorem append {c d : Chunk} {xs ys : List UInt8} (hc : c.Spells xs) (hd : d.Spells ys) :
    (c ++ d).Spells (xs ++ ys) := by
  obtain ⟨xs', hxs, hx⟩ := hc
  obtain ⟨ys', hys, hy⟩ := hd
  exact ⟨xs' ++ ys', Chunk.append_eq_ofBytes.mpr ⟨xs', ys', hxs, hys, rfl⟩, hx.append hy⟩

/-- A byte that is written as it was read. -/
theorem cons {c : Chunk} {xs : List UInt8} (b : UInt8) (hc : c.Spells xs) :
    (Chunk.byte b ++ c).Spells (b :: xs) :=
  append (bytes [b]) hc

end Chunk.Spells

namespace ByteReader

variable {α β : Type}

-- ================================================ what a reader gave

/-- Whenever the reader succeeds, `Q` holds of what it gave and of the
bytes that it took. -/
def Gives (r : ByteReader α) (Q : α → List UInt8 → Prop) : Prop :=
  ∀ (input next : ByteInput) (a : α), r input = .ok (a, next) →
    ∃ xs, input.rest = xs ++ next.rest ∧ Q a xs

namespace Gives

theorem pure {Q : α → List UInt8 → Prop} {a : α} (h : Q a []) : Gives (Pure.pure a) Q := by
  intro input next b hok
  cases hok
  exact ⟨[], rfl, h⟩

theorem throw {Q : α → List UInt8 → Prop} (e : DecodeError) : Gives (throw e) Q := by
  intro input next a hok
  cases hok

/-- Two readers spell one after the other what they gave. -/
theorem bind {r : ByteReader α} {f : α → ByteReader β} {P : α → List UInt8 → Prop}
    {Q : β → List UInt8 → Prop} (hr : Gives r P)
    (hf : ∀ a xs, P a xs → Gives (f a) fun b ys => Q b (xs ++ ys)) : Gives (r >>= f) Q := by
  intro input next b hok
  rw [bind_apply] at hok
  cases hs : r input with
  | error e =>
      rw [hs] at hok
      cases hok
  | ok p =>
      rw [hs] at hok
      obtain ⟨xs, hxs, hP⟩ := hr input p.2 p.1 hs
      obtain ⟨ys, hys, hQ⟩ := hf p.1 xs hP p.2 next b hok
      exact ⟨xs ++ ys, by rw [hxs, hys, List.append_assoc], hQ⟩

/-- A last step that takes no bytes. -/
theorem map {r : ByteReader α} {f : α → β} {P : α → List UInt8 → Prop}
    {Q : β → List UInt8 → Prop} (hr : Gives r P) (h : ∀ a xs, P a xs → Q (f a) xs) :
    Gives (r >>= fun a => Pure.pure (f a)) Q := by
  refine hr.bind fun a xs ha => pure ?_
  rw [List.append_nil]
  exact h a xs ha

theorem offset_bind {f : Nat → ByteReader α} {Q : α → List UInt8 → Prop}
    (h : ∀ start, Gives (f start) Q) : Gives (offset >>= f) Q :=
  fun input next a hok => h input.offset input next a hok

theorem bounded {r : Nat → ByteReader α} {Q : α → List UInt8 → Prop}
    (h : ∀ n, Gives (r n) Q) : Gives (bounded r) Q :=
  fun input next a hok => h _ input next a hok

/-- What a reader gave may be said less exactly. -/
theorem mono {r : ByteReader α} {P Q : α → List UInt8 → Prop} (hr : Gives r P)
    (h : ∀ a xs, P a xs → Q a xs) : Gives r Q := by
  intro input next a hok
  obtain ⟨xs, hxs, ha⟩ := hr input next a hok
  exact ⟨xs, hxs, h a xs ha⟩

end Gives

-- ===================================================== raw operands

/-- A split puts back together what it took apart. -/
theorem split?_eq_some {n : Nat} {xs a b : List α} (h : split? n xs = some (a, b)) :
    xs = a ++ b ∧ a.length = n := by
  induction n generalizing xs a b with
  | zero =>
      cases h
      exact ⟨rfl, rfl⟩
  | succ n ih =>
      cases xs with
      | nil => cases h
      | cons x xs =>
          rw [split?, Option.map_eq_some_iff] at h
          obtain ⟨⟨a', b'⟩, hsplit, hab⟩ := h
          cases hab
          obtain ⟨rfl, hlen⟩ := ih hsplit
          exact ⟨rfl, congrArg Nat.succ hlen⟩

/-- A run of bytes is what it has taken, as many as asked for. -/
theorem take_gives (n : Nat) : Gives (take n) fun bytes xs => bytes = xs ∧ xs.length = n := by
  intro input next bytes hok
  rw [take] at hok
  cases hs : split? n input.rest with
  | none =>
      rw [hs] at hok
      cases hok
  | some p =>
      rw [hs] at hok
      cases hok
      obtain ⟨hrest, hlen⟩ := split?_eq_some hs
      exact ⟨p.1, hrest, rfl, hlen⟩

/-- A byte is itself. -/
theorem byte_gives : Gives byte fun b xs => xs = [b] := by
  refine (take_gives 1).bind fun bytes xs h => ?_
  obtain ⟨rfl, hlen⟩ := h
  obtain ⟨b, rfl⟩ := List.length_eq_one_iff.mp hlen
  exact Gives.pure rfl

/-- A tag and what follows it. -/
theorem tag_gives {f : Nat → UInt8 → ByteReader α} {Q : α → List UInt8 → Prop}
    (h : ∀ start tag, Gives (f start tag) fun a xs => Q a (tag :: xs)) :
    Gives (offset >>= fun start => byte >>= f start) Q := by
  refine Gives.offset_bind fun start => byte_gives.bind fun tag xs hxs => ?_
  subst hxs
  exact h start tag

/-- A number read from its bytes is smaller than they could hold: the
induction carries the number read so far in front. -/
theorem ofBigEndian_lt (xs : List UInt8) (acc : Nat) :
    ∃ low < 256 ^ xs.length,
      xs.foldl (fun n b => n * 256 + b.toNat) acc = acc * 256 ^ xs.length + low := by
  induction xs generalizing acc with
  | nil => exact ⟨0, by simp, by simp⟩
  | cons b xs ih =>
      obtain ⟨low, hlow, heq⟩ := ih (acc * 256 + b.toNat)
      have hb : b.toNat < 256 := b.toNat_lt
      refine ⟨b.toNat * 256 ^ xs.length + low, ?_, ?_⟩
      · have hstep : (b.toNat + 1) * 256 ^ xs.length ≤ 256 * 256 ^ xs.length :=
          Nat.mul_le_mul_right _ hb
        rw [List.length_cons, Nat.pow_succ]
        rw [Nat.add_mul, Nat.one_mul] at hstep
        omega
      · rw [List.foldl_cons, heq, List.length_cons, Nat.pow_succ]
        ring

/-- The digits of a number read from bytes are these bytes, whatever
was read before them. -/
theorem bigEndianBytes_foldl (xs : List UInt8) (acc : Nat) :
    Chunk.bigEndianBytes (xs.foldl (fun n b => n * 256 + b.toNat) acc) xs.length = xs := by
  induction xs generalizing acc with
  | nil => rfl
  | cons b xs ih =>
      obtain ⟨low, hlow, heq⟩ := ofBigEndian_lt xs (acc * 256 + b.toNat)
      have hpow : Nat.pow 256 xs.length = 256 ^ xs.length := rfl
      have hdiv : ((acc * 256 + b.toNat) * 256 ^ xs.length + low) / 256 ^ xs.length
          = acc * 256 + b.toNat := by
        rw [Nat.mul_comm, Nat.mul_add_div (Nat.pow_pos (by decide)), Nat.div_eq_of_lt hlow,
          Nat.add_zero]
      have hdigit : UInt8.ofNat (acc * 256 + b.toNat) = b := by
        apply UInt8.toNat_inj.mp
        rw [UInt8.toNat_ofNat']
        have hb : b.toNat < 256 := b.toNat_lt
        omega
      rw [List.foldl_cons, List.length_cons, Chunk.bigEndianBytes, ih, heq, hpow, hdiv, hdigit]

/-- A number in `n` bytes is below the bound of `n` bytes and is
written in the same bytes. -/
theorem number_gives (n : Nat) :
    Gives (number n) fun k xs => k < 256 ^ n ∧ Chunk.bigEndianBytes k n = xs := by
  refine (take_gives n).map fun bytes xs h => ?_
  obtain ⟨rfl, rfl⟩ := h
  obtain ⟨low, hlow, heq⟩ := ofBigEndian_lt bytes 0
  rw [Nat.zero_mul, Nat.zero_add] at heq
  exact ⟨by rw [ofBigEndian, heq]; exact hlow, bigEndianBytes_foldl bytes 0⟩

/-- A number is spelled by the bytes it was read from, however it was
announced. -/
theorem sized_gives (n : Nat) :
    Gives (number n) fun k xs => ∀ e, (Chunk.sized n k e).Spells xs := by
  refine (number_gives n).mono fun k xs h e => ?_
  obtain ⟨hk, rfl⟩ := h
  exact ⟨_, Chunk.sized_eq_ofBytes.mpr ⟨hk, rfl⟩, .refl _⟩

/-- Text is spelled by the bytes it was read from. -/
theorem utf8_gives (n : Nat) :
    Gives (utf8 n) fun s xs => Chunk.utf8 s = xs ∧ xs.length = n := by
  refine Gives.offset_bind fun start => (take_gives n).bind fun bytes xs h => ?_
  obtain ⟨rfl, hlen⟩ := h
  cases hs : String.fromUTF8? ⟨bytes.toArray⟩ with
  | none => exact Gives.throw _
  | some s =>
      refine Gives.pure ?_
      rw [List.append_nil]
      refine ⟨?_, hlen⟩
      rw [String.fromUTF8?] at hs
      split at hs
      · cases hs
        rfl
      · cases hs

/-- A name is spelled by the bytes it was read from. -/
theorem name_gives : Gives name fun s xs => (Chunk.name s).Spells xs := by
  refine (sized_gives 2).bind fun k xs hk => (utf8_gives k).mono fun s ys h => ?_
  obtain ⟨rfl, rfl⟩ := h
  exact (hk _).append (.bytes _)

-- ============================================================ types

/-- Columns are read onto those before them; no name is taken
twice. -/
theorem columns_gives {r : ByteReader DataType}
    (hr : Gives r fun t xs => t.encode.Spells xs ∧ t.namesDistinct = true) (start n : Nat)
    (done : Heading) :
    Gives (columns r start n done) fun h xs => ∃ cs, h = done ++ cs ∧ cs.length = n ∧
      (DataType.encodeColumns cs).Spells xs ∧ DataType.columnsDistinct cs = true ∧
      (done.names.Nodup → h.names.Nodup) := by
  induction n generalizing done with
  | zero => exact Gives.pure ⟨[], by simp, rfl, .bytes [], rfl, id⟩
  | succ n ih =>
      refine name_gives.bind fun columnName xs hname => hr.bind fun t ys ht => ?_
      cases hpush : Heading.push done ⟨columnName, t⟩ with
      | error e => exact Gives.throw _
      | ok more =>
          refine (ih more).mono fun h zs hcs => ?_
          obtain ⟨cs, rfl, hlen, hspell, hdistinct, hnodup⟩ := hcs
          have hmore := (Heading.push_eq_ok.mp hpush).2
          subst hmore
          refine ⟨⟨columnName, t⟩ :: cs, (List.append_cons ..).symm, congrArg Nat.succ hlen, ?_, ?_,
            fun hd => hnodup (Heading.nodup_names_push hpush hd)⟩
          · exact hname.append (ht.1.append hspell)
          · rw [DataType.columnsDistinct, ht.2, hdistinct]
            rfl

/-- A heading is spelled by its bytes if its types are, and its names are
distinct. -/
theorem headingOf_gives {r : ByteReader DataType}
    (hr : Gives r fun t xs => t.encode.Spells xs ∧ t.namesDistinct = true) :
    Gives (headingOf r) fun h xs => (Heading.encode h).Spells xs ∧ h.namesDistinct = true := by
  refine Gives.offset_bind fun start => (sized_gives 2).bind ?_
  refine fun n xs hn => (columns_gives hr start n []).mono fun h ys hcs => ?_
  obtain ⟨cs, rfl, rfl, hspell, hdistinct, hnodup⟩ := hcs
  refine ⟨(hn _).append hspell, ?_⟩
  rw [Heading.namesDistinct, Bool.and_eq_true, decide_eq_true_eq]
  exact ⟨hnodup List.nodup_nil, hdistinct⟩

/-- The marker before a supertype and the supertype. -/
theorem super_gives {r : ByteReader DataType}
    (hr : Gives r fun t xs => t.encode.Spells xs ∧ t.namesDistinct = true)
    (f : Option DataType → α) :
    Gives (byte >>= fun b => if b == 0 then pure (f none) else r >>= fun t => pure (f (some t)))
      fun a xs => ∃ s, a = f s ∧ (DataType.encodeSuper s).Spells xs
        ∧ DataType.superDistinct s = true := by
  refine byte_gives.bind fun b xs hxs => ?_
  subst hxs
  by_cases hb : b = 0
  · subst hb
    exact Gives.pure ⟨none, rfl, .bytes [0], rfl⟩
  · rw [if_neg (by simpa using hb)]
    refine hr.map fun t ys ht => ⟨some t, rfl, ?_, ht.2⟩
    exact Chunk.Spells.append ⟨[1], rfl, .truth hb⟩ ht.1

/-- A type is spelled by the bytes it was read from, by induction on its
depth. -/
theorem typeWithin_gives (n : Nat) :
    Gives (typeWithin n) fun t xs => t.encode.Spells xs ∧ t.namesDistinct = true := by
  induction n with
  | zero => exact Gives.offset_bind fun start => Gives.throw _
  | succ n ih =>
      refine tag_gives fun start tag => ?_
      -- the reader looks at the tag, so the cases are those of its number
      have htag : UInt8.ofNat tag.toNat = tag := UInt8.ofNat_toNat
      generalize tag.toNat = t at htag ⊢
      subst htag
      match t with
      | 0 => exact Gives.pure ⟨.bytes [0], rfl⟩
      | 1 => exact Gives.pure ⟨.bytes [1], rfl⟩
      | 2 => exact Gives.pure ⟨.bytes [2], rfl⟩
      | 3 => exact Gives.pure ⟨.bytes [3], rfl⟩
      | 4 => exact Gives.pure ⟨.bytes [4], rfl⟩
      | 5 => exact (headingOf_gives ih).map fun h xs hh => ⟨hh.1.cons 5, hh.2⟩
      | 6 => exact (headingOf_gives ih).map fun h xs hh => ⟨hh.1.cons 6, hh.2⟩
      | 7 =>
          refine name_gives.bind fun typeName xs hname => ?_
          refine (headingOf_gives ih).bind fun h ys hh => ?_
          refine (super_gives ih fun s => DataType.user ⟨typeName, h, s⟩).mono fun t zs hs => ?_
          obtain ⟨s, rfl, hsuper, hdistinct⟩ := hs
          refine ⟨(hname.append (hh.1.append hsuper)).cons 7, ?_⟩
          rw [DataType.namesDistinct, hdistinct, Bool.and_true]
          exact hh.2
      | 8 => exact Gives.pure ⟨.bytes [8], rfl⟩
      | 9 => exact Gives.pure ⟨.bytes [9], rfl⟩
      | t + 10 => exact Gives.throw _

end ByteReader

namespace Decimal

/-- Little-endian bytes are those of the number they make. -/
theorem littleEndian_ofLittleEndian (xs : List UInt8) :
    littleEndian (ofLittleEndian xs) xs.length = xs := by
  induction xs with
  | nil => rfl
  | cons b xs ih =>
      have hb : b.toNat < 256 := b.toNat_lt
      have hdigit : UInt8.ofNat (b.toNat + 256 * ofLittleEndian xs) = b := by
        apply UInt8.toNat_inj.mp
        rw [UInt8.toNat_ofNat']
        omega
      have hrest : (b.toNat + 256 * ofLittleEndian xs) / 256 = ofLittleEndian xs := by omega
      rw [List.length_cons, ofLittleEndian, littleEndian_succ, hdigit, hrest, ih]

/-- A number from little-endian bytes is smaller than they could hold. -/
theorem ofLittleEndian_lt (xs : List UInt8) : ofLittleEndian xs < 256 ^ xs.length := by
  induction xs with
  | nil => decide
  | cons b xs ih =>
      have hb : b.toNat < 256 := b.toNat_lt
      rw [ofLittleEndian, List.length_cons, Nat.pow_succ]
      omega

/-- Any sixteen bytes are a spelling of the number that they hold. -/
theorem normalises_toBytes {a b scale sign : UInt8} {mantissa : List UInt8}
    (hlen : mantissa.length = 12) :
    Normalises ([a, b, scale, sign] ++ mantissa)
      (ofBytes [a, b, scale, sign] mantissa).toBytes := by
  by_cases hscale : scale.toNat % 32 ≤ 28
  · have hbytes : littleEndian (ofLittleEndian mantissa % 0x1000000000000000000000000) 12
        = mantissa := by
      have hlow : ofLittleEndian mantissa < 0x1000000000000000000000000 := by
        have h := ofLittleEndian_lt mantissa
        rwa [hlen] at h
      rw [Nat.mod_eq_of_lt hlow, ← hlen]
      exact littleEndian_ofLittleEndian mantissa
    have heq : (ofBytes [a, b, scale, sign] mantissa).toBytes
        = [0, 0, UInt8.ofNat (scale.toNat % 32), if 128 ≤ sign.toNat then 128 else 0]
          ++ mantissa := by
      unfold ofBytes
      extract_lets s n k
      have hs : s ≤ 28 := hscale
      have hk : littleEndian k 12 = mantissa := hbytes
      rw [dif_pos hs, toBytes, hk]
      simp [s, n]
    rw [heq]
    exact (Normalises.decimalFlags hscale).append (.refl mantissa)
  · exact .decimalScale (Nat.lt_of_not_le hscale) hlen

end Decimal

/-- The moment of a count of milliseconds has that count. -/
theorem Moment.ofMillis?_eq_some {ms : Int} {m : Moment} (h : Moment.ofMillis? ms = some m) :
    m.toMillis = ms ∧ m.isValid = true ∧ m.isWhole = true := by
  rw [ofMillis?, Option.ite_none_right_eq_some] at h
  obtain ⟨hyear, hm⟩ := h
  cases hm
  have hsecond : ms.fdiv 1000 = ms / 1000 := Int.fdiv_eq_ediv_of_nonneg _ (by decide)
  have hmilli : ms.fmod 1000 = ms % 1000 := Int.fmod_eq_emod_of_nonneg _ (by decide)
  refine ⟨?_, ?_, ?_⟩
  · rw [toMillis, hsecond, hmilli]
    dsimp only
    omega
  · rw [isValid, Bool.and_eq_true, decide_eq_true_eq, hmilli]
    dsimp only
    exact ⟨hyear, by omega⟩
  · rw [isWhole, Bool.and_eq_true, decide_eq_true_eq, beq_iff_eq, hmilli]
    dsimp only
    omega

namespace ByteReader

variable {α : Type}

/-- A decimal is spelled by its bytes up to what its flags leave unused. -/
theorem decimal_gives : Gives decimal fun d xs => (Chunk.ofBytes d.toBytes).Spells xs := by
  refine (take_gives 16).map fun bytes xs h => ?_
  obtain ⟨rfl, hlen⟩ := h
  match bytes, hlen with
  | a :: b :: scale :: sign :: mantissa, hlen =>
      refine ⟨_, rfl, Decimal.normalises_toBytes ?_⟩
      simpa using hlen

/-- A moment is spelled by the bytes it was read from and is one that can
be written. -/
theorem moment_gives :
    Gives moment fun m xs => m.encode.Spells xs ∧ m.isValid = true ∧ m.isWhole = true := by
  refine Gives.offset_bind fun start => (number_gives 8).bind fun n xs h => ?_
  obtain ⟨hn, rfl⟩ := h
  cases hm : Moment.ofMillis? (signed64 n) with
  | none => exact Gives.throw _
  | some m =>
      refine Gives.pure ?_
      obtain ⟨hmillis, hm⟩ := Moment.ofMillis?_eq_some hm
      have hback : (signed64 n % 0x10000000000000000).toNat = n := by
        unfold signed64
        split
        · omega
        · omega
      rw [List.append_nil, Moment.encode, hmillis, hback]
      exact ⟨.bytes _, hm⟩

/-- A reader run a number of times: what holds of nothing, and goes on
holding with one item more, holds of all items. -/
theorem times_gives {r : ByteReader α} {Q : α → List UInt8 → Prop}
    {R : List α → List UInt8 → Prop} (hr : Gives r Q) (hnil : R [] [])
    (hcons : ∀ {a xs as ys}, Q a xs → R as ys → R (a :: as) (xs ++ ys)) (n : Nat) :
    Gives (times r n) fun as xs => as.length = n ∧ R as xs := by
  induction n with
  | zero => exact Gives.pure ⟨rfl, hnil⟩
  | succ n ih =>
      refine hr.bind fun a xs ha => ih.map fun as ys has => ?_
      exact ⟨congrArg Nat.succ has.1, hcons ha has.2⟩

/-- The kind of a segment is spelled by its byte. -/
theorem segmentKind_gives : Gives segmentKind fun kind xs => xs = [kind.toByte] := by
  refine tag_gives fun start b => ?_
  have hb : UInt8.ofNat b.toNat = b := UInt8.ofNat_toNat
  rw [SegmentKind.ofByte?]
  generalize b.toNat = t at hb ⊢
  subst hb
  match t with
  | 0 => exact Gives.pure rfl
  | 1 => exact Gives.pure rfl
  | 2 => exact Gives.pure rfl
  | 3 => exact Gives.pure rfl
  | t + 4 => exact Gives.throw _

end ByteReader

-- ========================================================== buffers

namespace Instruction

end Instruction

end RelQuery
