/-
Instructions as bytes.

Numbers are big-endian. Names and lists follow their length; types and
values follow a tag. Only the code of a segment is written, not the
instructions it was made from.
-/
import RelQuery.Code.Chunk
import RelQuery.Code.Instruction

namespace RelQuery

namespace DataType

mutual

/-- A type: its tag and what the tag asks for. -/
def encode : DataType → Chunk
  | .bool => .byte 0
  | .number => .byte 1
  | .text => .byte 2
  | .binary => .byte 3
  | .time => .byte 4
  | .tuple h => .byte 5 ++ (.length16 h.length "heading" ++ encodeColumns h)
  | .relation h => .byte 6 ++ (.length16 h.length "heading" ++ encodeColumns h)
  | .user ⟨n, h, s⟩ =>
    .byte 7 ++ (.name n ++ ((.length16 h.length "heading" ++ encodeColumns h) ++ encodeSuper s))
  | .code => .byte 8
  | .void => .byte 9
  | .unknown => .fail (.placeholder .unknown)
  | .table => .fail (.placeholder .table)
  | .row => .fail (.placeholder .row)
  | .ordered => .fail (.placeholder .ordered)
  | .ordinal => .fail (.placeholder .ordinal)
  | .any => .fail (.placeholder .any)

/-- A supertype after a byte that tells whether there is one. -/
def encodeSuper : Option DataType → Chunk
  | none => .byte 0
  | some t => .byte 1 ++ t.encode

/-- Columns one after another: name and type each. -/
def encodeColumns : List Column → Chunk
  | [] => .empty
  | ⟨n, t⟩ :: rest => .name n ++ (t.encode ++ encodeColumns rest)

end

end DataType

/-- A heading: the number of columns, then the columns. -/
def Heading.encode (h : Heading) : Chunk :=
  .length16 h.length "heading" ++ DataType.encodeColumns h

/-- Milliseconds in eight bytes, negative ones in two's complement. -/
def Moment.encode (m : Moment) : Chunk :=
  .ofBytes (Chunk.bigEndianBytes (m.toMillis % 0x10000000000000000).toNat 8)

namespace Value

mutual

/-- A value: its tag and what the tag asks for. -/
def encode : Value → Chunk
  | .void => .byte 0
  | .bool b => .byte 1 ++ .byte (if b then 1 else 0)
  | .number d => .byte 2 ++ .ofBytes d.toBytes
  | .text s =>
    .byte 3 ++ (.length32 (Chunk.utf8 s).length "text literal" ++ .ofBytes (Chunk.utf8 s))
  | .binary bytes => .byte 4 ++ (.length32 bytes.length "binary literal" ++ .ofBytes bytes)
  | .time m => .byte 5 ++ m.encode
  | .tuple fields => .byte 6 ++ (.length16 fields.length "tuple literal" ++ encodeFields fields)
  | .relation h rows =>
    .byte 7 ++ (Heading.encode h ++ (.length32 rows.length "relation literal" ++ encodeRows rows))
  | .heading h => .byte 8 ++ Heading.encode h

/-- Named values one after another. -/
def encodeFields : List (String × Value) → Chunk
  | [] => .empty
  | (n, v) :: rest => .name n ++ (v.encode ++ encodeFields rest)

/-- Rows one after another; their length is the heading's. -/
def encodeRows : List (List Value) → Chunk
  | [] => .empty
  | row :: rest => encodeCells row ++ encodeRows rest

/-- The cells of a row one after another. -/
def encodeCells : List Value → Chunk
  | [] => .empty
  | v :: rest => v.encode ++ encodeCells rest

end

end Value

/-- A segment: its header, the length of its code and the code. -/
def CodeBlock.encode (b : CodeBlock) : Chunk :=
  .name b.name ++ (.byte b.kind.toByte ++ (.length16 b.accums "accumulator count" ++
    (.byte (UInt8.ofNat b.flags.bits) ++ (Heading.encode b.lookup ++
      (.length32 b.code.length "segment" ++ .ofBytes b.code)))))

namespace Instruction

/-- The operands of an instruction. -/
def encodeOperands : Instruction → Chunk
  | .finish | .loadAccumulators | .loadLookup => .empty
  | .loadValue v => v.encode
  | .loadCatalog n | .loadCatalogRef n | .loadField n | .loadComponent n | .loadTupleField n =>
    .name n
  | .loadSegment block _ => block.encode
  | .call n arity => .name n ++ .arity n arity
  | .callVariadic n fixed more | .callVariadicTable n fixed more =>
    .name n ++ (.arity n fixed ++ .arity n more)

/-- An instruction: its opcode and its operands. -/
def encode (i : Instruction) : Chunk :=
  .byte i.opcode.toByte ++ i.encodeOperands

/-- Instructions one after another. -/
def encodeAll : List Instruction → Chunk
  | [] => .empty
  | i :: rest => i.encode ++ encodeAll rest

end Instruction

end RelQuery
