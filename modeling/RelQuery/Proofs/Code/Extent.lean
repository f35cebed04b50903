/-
Decoded data is no larger than the bytes it came from.

Lengths are read from the buffer and trusted at first; they are bounded
because whatever is counted takes bytes. Each reader is followed once
with the bytes that it took: an item takes at least one byte, so a list
has no more items than the bytes of the list (`Counted`).

There is one exception. A row takes the bytes of its cells, and a
relation without columns has rows without cells. Any number of them can
be announced in eight bytes.
-/
import RelQuery.Proofs.Code.Canonical
import RelQuery.Proofs.Text.Comment

namespace RelQuery

-- ====================================================== lists in data

/-- A list in decoded data, by its length. -/
structure Extent where
  length : Nat
  /-- The rows of a relation that has no columns. -/
  columnless : Bool := false
  deriving DecidableEq

namespace DataType

mutual

/-- The lists in a type: its headings, and its names with their
characters. -/
def extents : DataType → List Extent
  | .tuple h => ⟨h.length, false⟩ :: columnExtents h
  | .relation h => ⟨h.length, false⟩ :: columnExtents h
  | .user ⟨name, h, parent⟩ =>
    ⟨name.length, false⟩ :: ⟨h.length, false⟩ :: (columnExtents h ++ parentExtents parent)
  | _ => []

/-- The lists in some columns. -/
def columnExtents : List Column → List Extent
  | [] => []
  | ⟨name, t⟩ :: rest => (⟨name.length, false⟩ :: t.extents) ++ columnExtents rest

/-- The lists in a supertype, if there is one. -/
def parentExtents : Option DataType → List Extent
  | none => []
  | some t => t.extents

end

end DataType

/-- The lists in a heading. -/
def Heading.extents (h : Heading) : List Extent :=
  ⟨h.length, false⟩ :: DataType.columnExtents h

namespace Value

mutual

/-- The lists in a value, at any depth. -/
def extents : Value → List Extent
  | .text s => [⟨s.length, false⟩]
  | .binary bytes => [⟨bytes.length, false⟩]
  | .tuple fields => ⟨fields.length, false⟩ :: fieldExtents fields
  | .relation h rows => ⟨rows.length, h.isEmpty⟩ :: (Heading.extents h ++ rowExtents rows)
  | .heading h => Heading.extents h
  | _ => []

/-- The lists in named values. -/
def fieldExtents : List (String × Value) → List Extent
  | [] => []
  | (name, v) :: rest => (⟨name.length, false⟩ :: v.extents) ++ fieldExtents rest

/-- The rows as lists of cells, and the lists in them. -/
def rowExtents : List (List Value) → List Extent
  | [] => []
  | cells :: rest => (⟨cells.length, false⟩ :: cellExtents cells) ++ rowExtents rest

/-- The lists in the cells of a row. -/
def cellExtents : List Value → List Extent
  | [] => []
  | v :: rest => v.extents ++ cellExtents rest

end

end Value

namespace Instruction

mutual

/-- The lists in an instruction, at any depth. -/
def extents : Instruction → List Extent
  | .loadValue v => v.extents
  | .loadCatalog name | .loadCatalogRef name | .loadField name | .loadComponent name
  | .loadTupleField name | .call name _ | .callVariadic name _ _ | .callVariadicTable name _ _ =>
    [⟨name.length, false⟩]
  | .loadSegment block body =>
    ⟨block.name.length, false⟩ :: ⟨block.code.length, false⟩ ::
      (Heading.extents block.lookup ++ ⟨body.length, false⟩ :: bodyExtents body)
  | .finish | .loadAccumulators | .loadLookup => []

/-- The lists in some instructions. -/
def bodyExtents : List Instruction → List Extent
  | [] => []
  | i :: rest => i.extents ++ bodyExtents rest

end

end Instruction

-- ======================================================= bytes taken

/-- The list has no more elements than there are bytes. The rows of a
relation without columns are only bounded by the width of the number
that counts them. -/
def Extent.Fits (n : Nat) (e : Extent) : Prop :=
  if e.columnless then e.length < 256 ^ 4 else e.length ≤ n

/-- A longer stretch of bytes holds what a shorter one does. -/
theorem Extent.Fits.mono {m n : Nat} {e : Extent} (h : e.Fits m) (hmn : m ≤ n) : e.Fits n := by
  unfold Fits at h ⊢
  cases hcolumnless : e.columnless with
  | true => simpa [hcolumnless] using h
  | false =>
      rw [hcolumnless] at h
      exact Nat.le_trans h hmn

/-- Every character of a name takes a byte at least. -/
theorem length_le_utf8 (s : String) : s.length ≤ (Chunk.utf8 s).length := by
  have hsize (text : List Char) : (String.ofList text).utf8ByteSize = Text.byteLength text := by
    induction text with
    | nil => rfl
    | cons c text ih =>
        have hcons : String.ofList (c :: text) = String.singleton c ++ String.ofList text := by
          rw [String.singleton_eq_ofList, ← String.ofList_append]
          rfl
        rw [hcons, String.utf8ByteSize_append, String.utf8ByteSize_singleton, ih,
          Text.byteLength_cons]
  have hlength := Text.length_le_byteLength s.toList
  rw [← hsize, String.ofList_toList] at hlength
  exact hlength

namespace ByteReader

/-- All lists fit in these bytes. -/
def Fit (xs : List UInt8) (es : List Extent) : Prop := ∀ e ∈ es, e.Fits xs.length

/-- There is a byte, and all lists fit. -/
def Item (xs : List UInt8) (es : List Extent) : Prop := 0 < xs.length ∧ Fit xs es

/-- There are no more items than bytes, and all lists in them fit. -/
def Counted (xs : List UInt8) (count : Nat) (es : List Extent) : Prop :=
  count ≤ xs.length ∧ Fit xs es

namespace Fit

variable {xs ys : List UInt8} {es fs : List Extent} {k : Nat}

theorem nil : Fit xs [] := fun _ h => absurd h List.not_mem_nil

theorem cons (hk : k ≤ xs.length) (h : Fit xs es) : Fit xs (⟨k, false⟩ :: es) :=
  List.forall_mem_cons.mpr ⟨hk, h⟩

/-- Lists from different parts of the data, in the same bytes. -/
theorem both (h : Fit xs es) (h' : Fit xs fs) : Fit xs (es ++ fs) :=
  List.forall_mem_append.mpr ⟨h, h'⟩

theorem mono (h : Fit xs es) (hle : xs.length ≤ ys.length) : Fit ys es :=
  fun e he => (h e he).mono hle

/-- Bytes that come behind. -/
theorem ahead (h : Fit xs es) (ys : List UInt8) : Fit (xs ++ ys) es :=
  h.mono (List.sublist_append_left xs ys).length_le

/-- Bytes that come before. -/
theorem behind (h : Fit ys es) (xs : List UInt8) : Fit (xs ++ ys) es :=
  h.mono (List.sublist_append_right xs ys).length_le

/-- Two readers one after the other: each has its own bytes, and their
lists fit in all of them. -/
theorem append (h : Fit xs es) (h' : Fit ys fs) : Fit (xs ++ ys) (es ++ fs) :=
  (h.ahead ys).both (h'.behind xs)

/-- A tag and what follows it. -/
theorem tagged (h : Fit xs es) (tag : UInt8) : Item (tag :: xs) es :=
  ⟨Nat.succ_pos _, h.behind [tag]⟩

end Fit

namespace Item

variable {xs ys : List UInt8} {es fs : List Extent}

/-- An item is still one with more behind it. -/
theorem append (h : Item xs es) (h' : Fit ys fs) : Item (xs ++ ys) (es ++ fs) := by
  refine ⟨?_, h.2.append h'⟩
  rw [List.length_append]
  exact Nat.lt_of_lt_of_le h.1 (Nat.le_add_right _ _)

end Item

namespace Counted

variable {xs ys : List UInt8} {es fs : List Extent} {k : Nat}

theorem nil : Counted [] 0 [] := ⟨Nat.le_refl 0, .nil⟩

/-- One item more, which takes a byte. -/
theorem cons (h : Item xs es) (hs : Counted ys k fs) : Counted (xs ++ ys) (k + 1) (es ++ fs) := by
  refine ⟨?_, h.2.append hs.2⟩
  have hpos := h.1
  have hcount := hs.1
  rw [List.length_append]
  omega

/-- The list of the items fits as well. -/
theorem fit (h : Counted xs k es) : Fit xs (⟨k, false⟩ :: es) := .cons h.1 h.2

end Counted

variable {α : Type}

-- ============================================================== names

/-- The reader of a text takes a byte for each character. -/
theorem utf8_fits (n : Nat) : Gives (utf8 n) fun s xs => s.length ≤ xs.length := by
  refine (utf8_gives n).mono fun s xs h => ?_
  rw [← h.1]
  exact length_le_utf8 s

/-- A number of `n` bytes is bounded by its width alone. -/
theorem number_length (n : Nat) : Gives (number n) fun k xs => k < 256 ^ n ∧ xs.length = n := by
  refine (take_gives n).bind fun bytes xs h => ?_
  obtain ⟨rfl, rfl⟩ := h
  obtain ⟨low, hlow, heq⟩ := ofBigEndian_lt bytes 0
  rw [Nat.zero_mul, Nat.zero_add] at heq
  refine Gives.pure ⟨?_, by rw [List.append_nil]⟩
  rw [ofBigEndian, heq]
  exact hlow

/-- A name is an item: its length stands before it in two bytes. -/
theorem name_fits : Gives name fun s xs => Item xs [⟨s.length, false⟩] := by
  refine (number_length 2).bind fun k xs hk => ?_
  obtain ⟨-, hwidth⟩ := hk
  refine (utf8_fits k).mono fun s ys hs => ?_
  have hlength : (xs ++ ys).length = 2 + ys.length := by
    rw [List.length_append, hwidth]
  refine ⟨?_, .cons ?_ .nil⟩
  · omega
  · omega

-- ============================================================== types

/-- Columns are items, each with its name and its type. Columns that are
there already are not counted. -/
theorem columns_fit {r : ByteReader DataType} (hr : Gives r fun t xs => Item xs t.extents)
    (start n : Nat) (done : Heading) :
    Gives (columns r start n done) fun h xs =>
      ∃ cs, h = done ++ cs ∧ Counted xs cs.length (DataType.columnExtents cs) := by
  induction n generalizing done with
  | zero => exact Gives.pure ⟨[], (List.append_nil done).symm, .nil⟩
  | succ n ih =>
      refine name_fits.bind fun columnName xs hname => ?_
      refine hr.bind fun t ys ht => ?_
      cases hpush : Heading.push done ⟨columnName, t⟩ with
      | error e => exact Gives.throw _
      | ok more =>
          refine (ih more).mono fun h zs hcs => ?_
          obtain ⟨cs, rfl, hcs⟩ := hcs
          have hmore := (Heading.push_eq_ok.mp hpush).2
          subst hmore
          refine ⟨⟨columnName, t⟩ :: cs, (List.append_cons ..).symm, ?_⟩
          have hcolumn : Item (xs ++ ys) (⟨columnName.length, false⟩ :: t.extents) :=
            hname.append ht.2
          rw [← List.append_assoc]
          exact .cons hcolumn hcs

/-- A heading announces its columns in two bytes. -/
theorem headingOf_fits {r : ByteReader DataType} (hr : Gives r fun t xs => Item xs t.extents) :
    Gives (headingOf r) fun h xs => Fit xs (Heading.extents h) := by
  refine Gives.offset_bind fun start => ?_
  refine (number_length 2).bind fun n xs _ => ?_
  refine (columns_fit hr start n []).mono fun h ys hcs => ?_
  obtain ⟨cs, rfl, hcs⟩ := hcs
  exact hcs.fit.behind xs

/-- A type has a tag of its own, so it is an item at any depth. -/
theorem typeWithin_fits (n : Nat) : Gives (typeWithin n) fun t xs => Item xs t.extents := by
  induction n with
  | zero => exact Gives.offset_bind fun start => Gives.throw _
  | succ n ih =>
      refine tag_gives fun start tag => ?_
      generalize tag.toNat = t
      match t with
      | 0 | 1 | 2 | 3 | 4 | 8 | 9 => exact Gives.pure (Fit.nil.tagged tag)
      | 5 | 6 => exact (headingOf_fits ih).map fun h xs hh => hh.tagged tag
      | 7 =>
          refine name_fits.bind fun typeName xs hname => ?_
          refine (headingOf_fits ih).bind fun h ys hh => ?_
          refine byte_gives.bind fun b zs _ => ?_
          have hshown (parent : Option DataType) (ws : List UInt8)
              (hparent : Fit ws (DataType.parentExtents parent)) :
              Item (tag :: (xs ++ (ys ++ (zs ++ ws))))
                (DataType.user ⟨typeName, h, parent⟩).extents := by
            have hcolumns := hh.append (hparent.behind zs)
            exact (hname.2.append hcolumns).tagged tag
          -- the byte says whether a supertype follows
          split
          · exact Gives.pure (hshown none [] .nil)
          · exact ih.map fun t ws ht => hshown (some t) ws ht.2
      | t + 10 => exact Gives.throw _

theorem heading_fits : Gives heading fun h xs => Fit xs (Heading.extents h) :=
  headingOf_fits (Gives.bounded typeWithin_fits)

-- ============================================================= values

/-- A row has as many cells as its heading has columns, and each of them
is an item. -/
theorem cells_fit {r : ByteReader Value} (hr : Gives r fun v xs => Item xs v.extents) (n : Nat) :
    Gives (times r n) fun cells xs =>
      cells.length = n ∧ Counted xs cells.length (Value.cellExtents cells) :=
  times_gives (R := fun cells xs => Counted xs cells.length (Value.cellExtents cells)) hr .nil
    (fun hv hcells => .cons hv hcells) n

/-- Rows of cells take bytes, and rows without cells take none. -/
theorem rows_fit {r : ByteReader Value} (hr : Gives r fun v xs => Item xs v.extents) (h : Heading)
    (n : Nat) (hn : n < 256 ^ 4) :
    Gives (times (times r h.length) n) fun rows xs =>
      Fit xs (⟨rows.length, h.isEmpty⟩ :: Value.rowExtents rows) := by
  -- rows without columns take no bytes, so their number is bounded by its own
  -- bytes alone
  cases h with
  | nil =>
      have hrows := times_gives (R := fun rows xs => Fit xs (Value.rowExtents rows))
        (cells_fit hr 0) .nil (fun hcells hrows => hcells.2.fit.append hrows) n
      refine hrows.mono fun rows xs hrows => ?_
      obtain ⟨hlength, hfit⟩ := hrows
      refine List.forall_mem_cons.mpr ⟨?_, hfit⟩
      rw [hlength]
      exact hn
  | cons c h =>
      -- a row with a cell takes at least the byte of that cell
      have hrow {cells : List Value} {xs : List UInt8}
          (hcells : cells.length = (c :: h).length ∧
            Counted xs cells.length (Value.cellExtents cells)) :
          Item xs (⟨cells.length, false⟩ :: Value.cellExtents cells) := by
        obtain ⟨hlength, hcounted⟩ := hcells
        refine ⟨?_, hcounted.fit⟩
        have hpos : 0 < cells.length := by
          rw [hlength]
          exact Nat.succ_pos h.length
        exact Nat.lt_of_lt_of_le hpos hcounted.1
      have hrows := times_gives
        (R := fun rows xs => Counted xs rows.length (Value.rowExtents rows))
        (cells_fit hr (c :: h).length) .nil (fun hcells hrows => .cons (hrow hcells) hrows) n
      exact hrows.mono fun rows xs hrows => hrows.2.fit

/-- A field is a name and a value, and an item for the sake of its
name. -/
theorem fields_fit {r : ByteReader Value} (hr : Gives r fun v xs => Item xs v.extents) (n : Nat) :
    Gives (times (name >>= fun s => r >>= fun v => pure (s, v)) n) fun fields xs =>
      Fit xs (⟨fields.length, false⟩ :: Value.fieldExtents fields) := by
  have hfield : Gives (name >>= fun s => r >>= fun v => pure (s, v)) fun f xs =>
      Item xs (⟨f.1.length, false⟩ :: f.2.extents) := by
    refine name_fits.bind fun s xs hs => ?_
    exact hr.map fun v ys hv => hs.append hv.2
  have hfields := times_gives
    (R := fun fields xs => Counted xs fields.length (Value.fieldExtents fields))
    hfield .nil (fun hf hfields => .cons hf hfields) n
  exact hfields.mono fun fields xs h => h.2.fit

/-- A value has a tag of its own as well. What is announced in front of
it, in two or four bytes, is then counted out. -/
theorem valueWithin_fits (n : Nat) : Gives (valueWithin n) fun v xs => Item xs v.extents := by
  induction n with
  | zero => exact Gives.offset_bind fun start => Gives.throw _
  | succ n ih =>
      refine tag_gives fun start tag => ?_
      generalize tag.toNat = t
      match t with
      | 0 => exact Gives.pure (Fit.nil.tagged tag)
      | 1 => exact byte_gives.map fun b xs _ => Fit.nil.tagged tag
      | 2 => exact decimal_gives.map fun d xs _ => Fit.nil.tagged tag
      | 3 =>
          refine (number_length 4).bind fun k xs _ => ?_
          refine (utf8_fits k).map fun s ys hs => ?_
          have htext : Fit ys [⟨s.length, false⟩] := .cons hs .nil
          exact (htext.behind xs).tagged tag
      | 4 =>
          refine (number_length 4).bind fun k xs _ => ?_
          refine (take_gives k).map fun bytes ys hbytes => ?_
          obtain ⟨rfl, -⟩ := hbytes
          have hbinary : Fit bytes [⟨bytes.length, false⟩] := .cons (Nat.le_refl _) .nil
          exact (hbinary.behind xs).tagged tag
      | 5 => exact moment_gives.map fun m xs _ => Fit.nil.tagged tag
      | 6 =>
          refine (number_length 2).bind fun k xs _ => ?_
          refine (fields_fit ih k).map fun fields ys hfields => ?_
          exact (hfields.behind xs).tagged tag
      | 7 =>
          refine heading_fits.bind fun h xs hh => ?_
          refine (number_length 4).bind fun k ys hk => ?_
          refine (rows_fit ih h k hk.1).map fun rows zs hrows => ?_
          -- the rows come last in the bytes, their number first in the value
          obtain ⟨hcount, hrows⟩ := List.forall_mem_cons.mp ((hrows.behind ys).behind xs)
          have hparts := (hh.ahead (ys ++ zs)).both hrows
          exact Fit.tagged (List.forall_mem_cons.mpr ⟨hcount, hparts⟩) tag
      | 8 => exact heading_fits.map fun h xs hh => hh.tagged tag
      | t + 9 => exact Gives.throw _

/-- A value is at least one byte, and its lists fit the bytes that it was
read from. -/
theorem value_fits : Gives value fun v xs => Item xs v.extents :=
  Gives.bounded valueWithin_fits

-- ======================================================= instructions

/-- Everything that is read until nothing is left. -/
theorem allWithin_fits {r : ByteReader Instruction} (hr : Gives r fun i xs => Item xs i.extents)
    (n : Nat) : Gives (allWithin r n) fun is xs =>
        Counted xs is.length (Instruction.bodyExtents is) := by
  induction n with
  | zero => exact Gives.pure .nil
  | succ n ih =>
      intro input next is hok
      rw [allWithin_succ] at hok
      split at hok
      · cases hok
        exact ⟨[], rfl, .nil⟩
      · have hstep : Gives (r >>= fun i => allWithin r n >>= fun is => pure (i :: is)) fun is xs =>
            Counted xs is.length (Instruction.bodyExtents is) :=
          hr.bind fun i xs hi => ih.map fun is ys his => .cons hi his
        exact hstep input next is hok

/-- The code of a segment is decoded on its own and takes nothing from
the bytes around it. -/
theorem nested_fits {r : ByteReader Instruction} (hr : Gives r fun i xs => Item xs i.extents)
    (start : Nat) (code : List UInt8) :
    Gives (nested r start code) fun body xs =>
      xs = [] ∧ Fit code (⟨body.length, false⟩ :: Instruction.bodyExtents body) := by
  intro input next body hok
  rw [nested] at hok
  split at hok
  · rename_i body' rest hbody
    cases hok
    have hall := Gives.bounded (allWithin_fits hr)
    obtain ⟨xs, hcode, hfit⟩ := hall _ _ _ hbody
    refine ⟨[], rfl, rfl, ?_⟩
    have hcode : code = xs ++ rest.rest := hcode
    rw [hcode]
    exact hfit.fit.ahead rest.rest
  · cases hok

/-- The lists of a segment lie in four places: its name, its lookup, its
code as bytes and its code as instructions. -/
theorem segmentOf_fits {r : ByteReader Instruction} (hr : Gives r fun i xs => Item xs i.extents) :
    Gives (segmentOf r) fun i xs => Fit xs i.extents := by
  refine name_fits.bind fun segmentName xs₁ hname => ?_
  refine segmentKind_gives.bind fun kind xs₂ _ => ?_
  refine (number_length 2).bind fun accums xs₃ _ => ?_
  refine byte_gives.bind fun flags xs₄ _ => ?_
  refine heading_fits.bind fun lookup xs₅ hlookup => ?_
  refine (number_length 4).bind fun length xs₆ _ => ?_
  refine Gives.offset_bind fun start => ?_
  refine (take_gives length).bind fun code xs₇ hcode => ?_
  obtain ⟨rfl, -⟩ := hcode
  refine (nested_fits hr start code).map fun body xs₈ hbody => ?_
  obtain ⟨rfl, hbody⟩ := hbody
  have hcode : Fit code [⟨code.length, false⟩] := .cons (Nat.le_refl _) .nil
  have hin {part : List UInt8} {es : List Extent} (h : Fit part es)
      (hpart : part.length ≤ xs₁.length + xs₅.length + code.length) :
      Fit (xs₁ ++ (xs₂ ++ (xs₃ ++ (xs₄ ++ (xs₅ ++ (xs₆ ++ (code ++ []))))))) es :=
    h.mono (by simp only [List.length_append]; omega)
  have hnamed := hin hname.2 (by omega)
  have hcoded := hin hcode (by omega)
  have hlooked := hin hlookup (by omega)
  have hrun := hin hbody (by omega)
  exact hnamed.both (hcoded.both (hlooked.both hrun))

/-- One instruction of each kind. Most carry a name or nothing. -/
theorem instructionWithin_fits (n : Nat) :
    Gives (instructionWithin n) fun i xs => Item xs i.extents := by
  induction n with
  | zero => exact Gives.offset_bind fun start => Gives.throw _
  | succ n ih =>
      refine tag_gives fun start b => ?_
      have hbare {i : Instruction} (hi : i.extents = []) :
          Gives (pure i) fun i xs => Item (b :: xs) i.extents := by
        refine Gives.pure ?_
        rw [hi]
        exact Fit.nil.tagged b
      have hnamed (f : String → Instruction) (hf : ∀ s, (f s).extents = [⟨s.length, false⟩]) :
          Gives (name >>= fun s => pure (f s)) fun i xs => Item (b :: xs) i.extents := by
        refine name_fits.map fun s xs hs => ?_
        rw [hf]
        exact hs.2.tagged b
      have htallied (f : String → Nat → Nat → Instruction)
          (hf : ∀ s n m, (f s n m).extents = [⟨s.length, false⟩]) :
          Gives (name >>= fun s => byte >>= fun n => byte >>= fun m => pure (f s n.toNat m.toNat))
            fun i xs => Item (b :: xs) i.extents := by
        refine name_fits.bind fun s xs hs => ?_
        refine byte_gives.bind fun n ys _ => ?_
        refine byte_gives.map fun m zs _ => ?_
        rw [hf]
        exact (hs.2.ahead (ys ++ zs)).tagged b
      -- the arms of the reader, in its order
      split
      · exact Gives.throw _
      · exact hbare rfl
      · exact value_fits.map fun v xs hv => hv.2.tagged b
      · exact hnamed _ fun _ => rfl
      · exact hnamed _ fun _ => rfl
      · exact hnamed _ fun _ => rfl
      · exact hnamed _ fun _ => rfl
      · exact hnamed _ fun _ => rfl
      · exact hbare rfl
      · exact hbare rfl
      · exact (segmentOf_fits ih).mono fun i xs hi => hi.tagged b
      · refine name_fits.bind fun s xs hs => ?_
        exact byte_gives.map fun n ys _ => (hs.2.ahead ys).tagged b
      · exact htallied (.callVariadic · · ·) fun _ _ _ => rfl
      · exact htallied (.callVariadicTable · · ·) fun _ _ _ => rfl

/-- An instruction is at least one byte, and its lists fit the bytes that
it was read from. -/
theorem instruction_fits : Gives instruction fun i xs => Item xs i.extents :=
  Gives.bounded instructionWithin_fits

end ByteReader

-- ============================================================ buffers

namespace Instruction

/-- A buffer holds as many instructions as it has bytes, at most, and
all lists in them fit. -/
theorem fit_of_decodeAll {bytes : List UInt8} {is : List Instruction}
    (h : decodeAll bytes = .ok is) :
    ByteReader.Fit bytes (⟨is.length, false⟩ :: bodyExtents is) := by
  rw [ByteReader.decodeAll_eq] at h
  cases hs : ByteReader.bounded (ByteReader.allWithin ByteReader.instruction) ⟨0, bytes⟩ with
  | error e =>
      rw [hs] at h
      cases h
  | ok p =>
      rw [hs] at h
      cases h
      have hall := ByteReader.Gives.bounded (ByteReader.allWithin_fits ByteReader.instruction_fits)
      obtain ⟨xs, hxs, hfit⟩ := hall _ _ _ hs
      have hxs : bytes = xs ++ p.2.rest := hxs
      rw [hxs]
      exact hfit.fit.ahead p.2.rest

/-- A relation of rows without cells. -/
def columnlessRows (count : Nat) : Instruction :=
  .loadValue (.relation [] (List.replicate count []))

/-- Rows without cells hold no time, so nothing of them is lost. -/
theorem columnlessRows_kept (count : Nat) : (columnlessRows count).IsKept := by
  have hrows : Value.rowsWellFormed 0 (List.replicate count []) = true ∧
      Value.rowTimes (List.replicate count []) = [] := by
    induction count with
    | zero => exact ⟨rfl, rfl⟩
    | succ count ih => exact ih
  refine ⟨hrows.1, fun m hm => ?_⟩
  rw [Value.times, hrows.2] at hm
  exact absurd hm List.not_mem_nil

/-- The rows themselves take no bytes, only their number does. -/
theorem encodeAll_columnlessRows {count : Nat} (h : count < 256 ^ 4) :
    encodeAll [columnlessRows count]
      = .ofBytes ([1, 7, 0, 0] ++ Chunk.bigEndianBytes count 4) := by
  have hrows : Value.encodeRows (List.replicate count []) = .empty := by
    induction count with
    | zero => rfl
    | succ count ih => exact ih (Nat.lt_of_succ_lt h)
  have hcount : Chunk.length32 (List.replicate count ([] : List Value)).length "relation literal"
      = .ofBytes (Chunk.bigEndianBytes count 4) := by
    rw [List.length_replicate]
    exact Chunk.sized_eq_ofBytes.mpr ⟨h, rfl⟩
  rw [encodeAll, columnlessRows, encode, encodeOperands, Value.encode, hcount, hrows]
  rfl

/-- Decoding believes the number, whatever it is. -/
theorem decodeAll_columnlessRows {count : Nat} (h : count < 256 ^ 4) :
    decodeAll ([1, 7, 0, 0] ++ Chunk.bigEndianBytes count 4) = .ok [columnlessRows count] := by
  have hkept : ∀ i ∈ [columnlessRows count], i.IsKept :=
    List.forall_mem_singleton.mpr (columnlessRows_kept count)
  have hends := ByteReader.instructions_end (encodeAll_columnlessRows h)
    fun i hi => (hkept i hi).isReadable
  rw [mapM_readBack? hkept] at hends
  exact decodeAll_of_ends_some hends

/-- Every list in decoded data has at most as many elements as the
buffer has bytes, unless it holds the rows of a relation that has no
columns. Of these there may be any number that fits in four bytes, which
is the bound in all buffers, and eight bytes are enough for them. -/
theorem decoded_lists_fit_unless_columnless {bytes : List UInt8} {is : List Instruction}
    (h : decodeAll bytes = .ok is) :
    (∀ e ∈ (⟨is.length, false⟩ :: bodyExtents is : List Extent),
      if e.columnless then e.length < 256 ^ 4 else e.length ≤ bytes.length) ∧
    ∀ count < 256 ^ 4, ∃ short, short.length = 8 ∧
      decodeAll short = .ok [.loadValue (.relation [] (List.replicate count []))] :=
  ⟨fit_of_decodeAll h, fun _ hcount => ⟨_, rfl, decodeAll_columnlessRows hcount⟩⟩

/-- A segment whose code loads a truth value, and after it as many rows
without cells as there are bytes, and one more. -/
theorem decoded_lists_fit_unless_columnless_one_more :
    let code : List UInt8 := [1, 1, 1]
    let bytes := [9, 0, 1, 115, 1, 0, 0, 0, 0, 0, 0, 0, 0, 3] ++ code ++ [1, 7, 0, 0, 0, 0, 0, 26]
    let is : List Instruction := [
      .loadSegment ⟨"s", .rowwise, 0, .none, [], code⟩ [.loadValue (.bool true)], columnlessRows 26]
    decodeAll bytes = .ok is ∧ bytes.length = 25 ∧
      (∀ e ∈ (⟨is.length, false⟩ :: bodyExtents is : List Extent),
        e ≠ ⟨26, true⟩ → e.length ≤ 25) ∧
      ∃ short, short.length = 8 ∧ decodeAll short = .ok [columnlessRows 26] := by
  intro code bytes is
  have hbytes : decodeAll bytes = .ok is := by rfl
  obtain ⟨hfit, hcounts⟩ := decoded_lists_fit_unless_columnless hbytes
  refine ⟨hbytes, rfl, fun e he hne => ?_, hcounts 26 (by decide)⟩
  have honly : ∀ e ∈ (⟨is.length, false⟩ :: bodyExtents is : List Extent),
      e ≠ ⟨26, true⟩ → e.columnless = false := by decide
  have hfits := hfit e he
  rw [honly e he hne] at hfits
  exact hfits

end Instruction

end RelQuery
