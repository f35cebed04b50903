/-
Decoding undoes encoding.

An instruction is written from its operands and read back from them.
`readBack?` says what becomes of it: literals come back with their
times cut to milliseconds, a segment with whatever its code decodes to.
A buffer written without a fault holds its instructions one after
another, each at least an opcode long, so that reading until nothing is
left takes as many steps as there are instructions and consumes every
byte.
-/
import RelQuery.Proofs.Code.Format

namespace RelQuery

namespace Instruction

-- =================================================== what is read back

/-- The instruction that is read where this one was written; none where
a time is out of range. -/
def readBack? : Instruction → Option Instruction
  | .loadValue v => v.cut?.map .loadValue
  | .loadSegment block _ => (decodeAll block.code).toOption.map (.loadSegment block)
  | i => some i

/-- The operands are well formed; code in a segment decodes unless a
time in it is out of range. -/
def IsReadable : Instruction → Prop
  | .loadValue v => v.isWellFormed = true
  | .loadSegment block _ =>
    Heading.namesDistinct block.lookup = true ∧
      ∀ e, decodeAll block.code = .error e → ∃ place, e = .badTime place
  | _ => True

end Instruction

namespace ByteReader

open Instruction

variable {α β : Type}

-- ========================================================= segments

theorem segmentKind_reads (kind : SegmentKind) :
    Reads segmentKind [kind.toByte] kind := by
  refine tag_settles (o := some kind) kind.toByte fun start => ?_
  cases kind with
  | closed => exact Reads.pure _
  | rowwise => exact Reads.pure _
  | fold => exact Reads.pure _
  | window => exact Reads.pure _

theorem ofBits_bits (f : SegmentFlags) : .ofBits (UInt8.ofNat f.bits).toNat = f := by
  obtain ⟨order, descending, grouped⟩ := f
  cases order <;> cases descending <;> cases grouped <;> rfl

/-- Code read on its own takes no bytes of its surroundings. -/
theorem nested_settles {code : List UInt8} {d : Nat} (hd : code.length < d) (start : Nat)
    (h : ∀ e, decodeAll code = .error e → ∃ place, e = .badTime place) :
    Settles (nested (instructionWithin d) start code) [] (decodeAll code).toOption := by
  cases hcode : decodeAll code with
  | ok body =>
      intro offset rest
      rw [nested_eq hd, hcode]
      rfl
  | error e =>
      obtain ⟨place, rfl⟩ := h e hcode
      intro offset rest
      refine ⟨place + start, ?_⟩
      rw [nested_eq hd, hcode]
      rfl

/-- A segment settles if its code does: the body is read within bytes of
its own. -/
theorem segmentOf_settles {block : CodeBlock} {body : List Instruction} {bytes : List UInt8}
    (he : block.encode = .ofBytes bytes) (hi : (Instruction.loadSegment block body).IsReadable)
    {d : Nat} (hd : bytes.length < d) :
    Settles (segmentOf (instructionWithin d)) bytes (loadSegment block body).readBack? := by
  obtain ⟨name, _, hname, h₁, rfl⟩ := Chunk.append_eq_ofBytes.mp he
  obtain ⟨kind, _, hkind, h₂, rfl⟩ := Chunk.append_eq_ofBytes.mp h₁
  obtain ⟨accums, _, haccums, h₃, rfl⟩ := Chunk.append_eq_ofBytes.mp h₂
  obtain ⟨flags, _, hflags, h₄, rfl⟩ := Chunk.append_eq_ofBytes.mp h₃
  obtain ⟨lookup, _, hlookup, h₅, rfl⟩ := Chunk.append_eq_ofBytes.mp h₄
  obtain ⟨length, code, hlength, hcode, rfl⟩ := Chunk.append_eq_ofBytes.mp h₅
  cases Chunk.byte_eq_ofBytes.mp hkind
  cases Chunk.byte_eq_ofBytes.mp hflags
  cases Chunk.ofBytes_inj.mp hcode
  simp only [List.length_append] at hd
  refine (name_reads hname).then ((segmentKind_reads block.kind).then ?_)
  refine (sized_reads haccums).then ((byte_reads _).then ?_)
  refine (heading_reads hlookup hi.1).then ((sized_reads hlength).then ?_)
  refine Settles.offset_bind fun start => ?_
  refine (take_reads block.code).then_nil ?_
  rw [ofBits_bits]
  exact (nested_settles (by omega) start hi.2).map _

-- ===================================================== instructions

/-- A number of arguments that was written is one byte. -/
theorem arity_eq_ofBytes {s : String} {n : Nat} {bytes : List UInt8}
    (h : Chunk.arity s n = .ofBytes bytes) : ∃ b : UInt8, bytes = [b] ∧ b.toNat = n := by
  obtain ⟨hn, rfl⟩ := Chunk.sized_eq_ofBytes.mp h
  refine ⟨UInt8.ofNat n, by simp [Chunk.bigEndianBytes], ?_⟩
  rw [UInt8.toNat_ofNat']
  exact Nat.mod_eq_of_lt hn

/-- Two numbers of arguments, whatever is made of them. -/
theorem arities_read {s : String} {fixed more : Nat} {bytes : List UInt8}
    (h : Chunk.arity s fixed ++ Chunk.arity s more = .ofBytes bytes) (f : Nat → Nat → α) :
    Reads (byte >>= fun b => byte >>= fun c => pure (f b.toNat c.toNat)) bytes (f fixed more) := by
  obtain ⟨xs, ys, hxs, hys, rfl⟩ := Chunk.append_eq_ofBytes.mp h
  obtain ⟨b, rfl, rfl⟩ := arity_eq_ofBytes hxs
  obtain ⟨c, rfl, rfl⟩ := arity_eq_ofBytes hys
  exact (byte_reads b).bind ((byte_reads c).map _)

/-- A written instruction reads back, at any bound above its length. -/
theorem instructionWithin_settles {i : Instruction} {bytes : List UInt8}
    (he : i.encode = .ofBytes bytes) (hi : i.IsReadable) {n : Nat} (hn : bytes.length < n) :
    Settles (instructionWithin n) bytes i.readBack? := by
  -- the opcode tells the instruction; its operands are written in the order of
  -- its fields
  obtain ⟨opcode, operands, hopcode, hoperands, rfl⟩ := Chunk.append_eq_ofBytes.mp he
  cases Chunk.byte_eq_ofBytes.mp hopcode
  rw [List.length_append, List.length_singleton] at hn
  obtain ⟨n, rfl⟩ := Nat.exists_eq_succ_of_ne_zero (Nat.ne_of_gt (Nat.zero_lt_of_lt hn))
  refine tag_settles i.opcode.toByte fun start => ?_
  cases i with
  | finish =>
      cases Chunk.ofBytes_inj.mp hoperands
      exact Reads.pure _
  | loadValue v => exact (value_settles hoperands hi).map _
  | loadCatalog s => exact (name_reads hoperands).map _
  | loadCatalogRef s => exact (name_reads hoperands).map _
  | loadField s => exact (name_reads hoperands).map _
  | loadComponent s => exact (name_reads hoperands).map _
  | loadTupleField s => exact (name_reads hoperands).map _
  | loadAccumulators =>
      cases Chunk.ofBytes_inj.mp hoperands
      exact Reads.pure _
  | loadLookup =>
      cases Chunk.ofBytes_inj.mp hoperands
      exact Reads.pure _
  -- the body is read at a bound one lower, which is still above its length
  | loadSegment block body => exact segmentOf_settles hoperands hi (by omega)
  | call s arity =>
      obtain ⟨name, arity, hname, harity, rfl⟩ := Chunk.append_eq_ofBytes.mp hoperands
      obtain ⟨b, rfl, rfl⟩ := arity_eq_ofBytes harity
      exact (name_reads hname).bind ((byte_reads b).map _)
  | callVariadic s fixed more =>
      obtain ⟨name, arities, hname, harities, rfl⟩ := Chunk.append_eq_ofBytes.mp hoperands
      exact (name_reads hname).bind (arities_read harities (callVariadic s))
  | callVariadicTable s fixed more =>
      obtain ⟨name, arities, hname, harities, rfl⟩ := Chunk.append_eq_ofBytes.mp hoperands
      exact (name_reads hname).bind (arities_read harities (callVariadicTable s))

theorem instruction_settles {i : Instruction} {bytes : List UInt8}
    (he : i.encode = .ofBytes bytes) (hi : i.IsReadable) :
    Settles instruction bytes i.readBack? :=
  Settles.bounded fun _ hn => instructionWithin_settles he hi hn

-- ========================================================== buffers

/-- The outcome of reading a whole buffer: everything in it, or a time
out of range. -/
def Ends (r : ByteReader α) (bytes : List UInt8) : Option α → Prop
  | some a => ∀ offset, r ⟨offset, bytes⟩ = .ok (a, ⟨offset + bytes.length, []⟩)
  | none => ∀ offset, ∃ place, r ⟨offset, bytes⟩ = .error (.badTime place)

/-- A buffer ends as its readers do, one after the other. -/
theorem Ends.bind {r : ByteReader α} {f : α → ByteReader β} {o : Option α} {p : α → Option β}
    {xs ys : List UInt8} (hr : Settles r xs o) (hf : ∀ a, Ends (f a) ys (p a)) :
    Ends (r >>= f) (xs ++ ys) (o.bind p) := by
  -- the first reader stops the buffer, or hands over to the second
  cases o with
  | none =>
      intro offset
      obtain ⟨place, hplace⟩ := hr offset ys
      refine ⟨place, ?_⟩
      rw [bind_apply, hplace]
      rfl
  | some a =>
      have hfa := hf a
      rw [Option.bind_some]
      cases hb : p a with
      | some b =>
          rw [hb] at hfa
          intro offset
          rw [bind_apply, hr offset ys, List.length_append, ← Nat.add_assoc]
          exact hfa (offset + xs.length)
      | none =>
          rw [hb] at hfa
          intro offset
          obtain ⟨place, hplace⟩ := hfa (offset + xs.length)
          refine ⟨place, ?_⟩
          rw [bind_apply, hr offset ys]
          exact hplace

/-- A last step that takes no bytes. -/
theorem Ends.map {r : ByteReader α} {o : Option α} {xs : List UInt8} (hr : Ends r xs o)
    (f : α → β) : Ends (r >>= fun x => Pure.pure (f x)) xs (o.map f) := by
  cases o with
  | none =>
      intro offset
      obtain ⟨place, hplace⟩ := hr offset
      refine ⟨place, ?_⟩
      rw [bind_apply, hplace]
      rfl
  | some a =>
      intro offset
      rw [bind_apply, hr offset]
      rfl

/-- Where something is left, one more item is read. -/
theorem Ends.allWithin_cons {r : ByteReader α} {n : Nat} {b : UInt8} {xs : List UInt8}
    {o : Option (List α)} (h : Ends (r >>= fun a => allWithin r n >>= fun as => pure (a :: as))
      (b :: xs) o) : Ends (allWithin r (n + 1)) (b :: xs) o := by
  cases o with
  | none => exact h
  | some as => exact h

/-- Written instructions read back one after another until nothing is
left. -/
theorem allWithin_ends {is : List Instruction} {bytes : List UInt8}
    (he : encodeAll is = .ofBytes bytes) (hi : ∀ i ∈ is, i.IsReadable)
    {n : Nat} (hn : bytes.length < n) :
    Ends (allWithin instruction n) bytes (is.mapM readBack?) := by
  induction is generalizing bytes n with
  | nil =>
      cases Chunk.ofBytes_inj.mp he
      obtain ⟨n, rfl⟩ := Nat.exists_eq_succ_of_ne_zero (Nat.ne_of_gt (Nat.zero_lt_of_lt hn))
      exact fun _ => rfl
  | cons i is ih =>
      obtain ⟨xs, ys, hx, hy, rfl⟩ := Chunk.append_eq_ofBytes.mp he
      obtain ⟨opcode, operands, hopcode, -, rfl⟩ := Chunk.append_eq_ofBytes.mp hx
      cases Chunk.byte_eq_ofBytes.mp hopcode
      simp only [List.length_append, List.length_singleton] at hn
      obtain ⟨n, rfl⟩ := Nat.exists_eq_succ_of_ne_zero (Nat.ne_of_gt (Nat.zero_lt_of_lt hn))
      have hrest := ih hy (fun j hj => hi j (List.mem_cons_of_mem i hj)) (n := n) (by omega)
      have hfirst := instruction_settles hx (hi i List.mem_cons_self)
      have hall := Ends.bind hfirst fun j => hrest.map fun js => j :: js
      simp only [Option.map_eq_bind] at hall
      rw [List.mapM_cons]
      exact Ends.allWithin_cons hall

/-- A written buffer reads back to its last byte. -/
theorem instructions_end {is : List Instruction} {bytes : List UInt8}
    (he : encodeAll is = .ofBytes bytes) (hi : ∀ i ∈ is, i.IsReadable) :
    Ends instructions bytes (is.mapM readBack?) := by
  have h := allWithin_ends he hi (Nat.lt_succ_self bytes.length)
  cases ho : is.mapM readBack? with
  | none =>
      rw [ho] at h
      exact h
  | some js =>
      rw [ho] at h
      exact h

end ByteReader

namespace Instruction

-- ======================================================= round trip

theorem decodeAll_of_ends_some {bytes : List UInt8} {js : List Instruction}
    (h : ByteReader.Ends ByteReader.instructions bytes (some js)) :
    decodeAll bytes = .ok js := by
  rw [decodeAll, StateT.run, h 0]
  rfl

/-- A buffer that ends badly stops at a moment, for nothing else is
refused. -/
theorem decodeAll_of_ends_none {bytes : List UInt8}
    (h : ByteReader.Ends ByteReader.instructions bytes none) :
    ∃ place, decodeAll bytes = .error (.badTime place) := by
  obtain ⟨place, hplace⟩ := h 0
  refine ⟨place, ?_⟩
  rw [decodeAll, StateT.run, hplace]
  rfl

/-- The binary form keeps everything: rows have one cell per column,
times are whole milliseconds outside a leap second, and the code of a
segment decodes to the instructions that the segment stands with. -/
def IsKept : Instruction → Prop
  | .loadValue v => v.isWellFormed = true ∧ ∀ m ∈ v.times, m.isWhole = true
  | .loadSegment block body =>
    Heading.namesDistinct block.lookup = true ∧ decodeAll block.code = .ok body
  | _ => True

/-- An instruction that is kept can be read. -/
theorem IsKept.isReadable {i : Instruction} (h : i.IsKept) : i.IsReadable := by
  cases i with
  | loadValue v => exact h.1
  | loadSegment block body =>
      refine ⟨h.1, fun e he => ?_⟩
      rw [h.2] at he
      cases he
  | _ => trivial

/-- An instruction that is kept is read back as it is. -/
theorem IsKept.readBack? {i : Instruction} (h : i.IsKept) : i.readBack? = some i := by
  cases i with
  | loadValue v =>
      rw [Instruction.readBack?, Value.cut?_of_isWhole v h.1 h.2]
      rfl
  | loadSegment block body =>
      rw [Instruction.readBack?, h.2]
      rfl
  | _ => rfl

/-- A listing that is kept is read back as it is. -/
theorem mapM_readBack? {is : List Instruction} (hi : ∀ i ∈ is, i.IsKept) :
    is.mapM Instruction.readBack? = some is := by
  induction is with
  | nil => rfl
  | cons i is ih =>
      rw [List.mapM_cons, (hi i List.mem_cons_self).readBack?,
        ih fun j hj => hi j (List.mem_cons_of_mem i hj)]
      rfl

/-- Whatever is written reads back, and nothing else: decoding a
buffer gives exactly the instructions it was written from and consumes
every byte. -/
theorem decodeAll_encodeAll {is : List Instruction} {bytes : List UInt8}
    (hw : (encodeAll is).result = .ok bytes) (hi : ∀ i ∈ is, i.IsKept) :
    decodeAll bytes = .ok is ∧
      ByteReader.instructions.run ⟨0, bytes⟩ = .ok (is, ⟨bytes.length, []⟩) := by
  have hends := ByteReader.instructions_end (Chunk.result_eq_ok.mp hw)
    fun i h => (hi i h).isReadable
  rw [mapM_readBack? hi] at hends
  refine ⟨decodeAll_of_ends_some hends, ?_⟩
  rw [StateT.run, hends 0, Nat.zero_add]

/-- A buffer with a literal of every depth and a segment. -/
theorem decodeAll_encodeAll_nested :
    let point : UserType := ⟨"point", [⟨"x", .number⟩], none⟩
    let pixel : UserType := ⟨"pixel", [⟨"x", .number⟩, ⟨"on", .bool⟩], some (.user point)⟩
    let h : Heading := [⟨"at", .time⟩, ⟨"of", .user pixel⟩]
    let row : List Value := [.time ⟨-1, 999000000⟩,
        .tuple [("x", .number .zero), ("on", .bool true)]]
    let is : List Instruction := [
      .loadValue (.relation h [row, row]),
      .loadSegment ⟨"s", .fold, 2, ⟨true, false, true⟩, h, [7, 8]⟩ [.loadAccumulators, .loadLookup],
      .callVariadicTable "order" 1 1, .finish]
    ∃ bytes, (encodeAll is).result = .ok bytes ∧ decodeAll bytes = .ok is ∧
      ByteReader.instructions.run ⟨0, bytes⟩ = .ok (is, ⟨bytes.length, []⟩) := by
  intro point pixel h row is
  have hw : (encodeAll is).result = .ok (encodeAll is).bytes := by rfl
  have hi : ∀ i ∈ is, i.IsKept := by
    intro i hi
    simp only [is, List.mem_cons, List.not_mem_nil, or_false] at hi
    rcases hi with rfl | rfl | rfl | rfl
    · exact ⟨by decide, by decide⟩
    · exact ⟨by decide, rfl⟩
    · trivial
    · trivial
  exact ⟨_, hw, decodeAll_encodeAll hw hi⟩

end Instruction

end RelQuery
