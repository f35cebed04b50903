/-
Bytes as instructions.

Nothing in a buffer is trusted: every operand that runs past the end,
every unknown opcode or tag and every malformed literal is an error
that tells its offset in the whole buffer, also from inside nested
segments.

Types and values nest. Each level takes at least one byte, so the
number of bytes left bounds the depth of the recursion; where that
bound is used up no byte is left, and the reader reports just that.
-/
import RelQuery.Code.Instruction

namespace RelQuery

/-- What is wrong with a buffer, and where. -/
inductive DecodeError where
  | truncated (offset needed : Nat)
  | unknownOpcode (offset : Nat) (byte : UInt8)
  | badValueTag (offset : Nat) (tag : UInt8)
  | badTypeTag (offset : Nat) (tag : UInt8)
  | badSegmentKind (offset : Nat) (kind : UInt8)
  | invalidUtf8 (offset : Nat)
  | badTime (offset : Nat)
  | malformed (offset : Nat) (reason : HeadingError)
  deriving DecidableEq, Repr

namespace DecodeError

def message : DecodeError → String
  | .truncated offset needed => s!"truncated operand at offset {offset}: needed {needed} bytes"
  | .unknownOpcode offset byte =>
    "unknown opcode 0x" ++ Text.hexByte byte ++ s!" at offset {offset}"
  | .badValueTag offset tag => "unknown value tag " ++ toString tag.toNat ++ s!" at offset {offset}"
  | .badTypeTag offset tag => "unknown type tag " ++ toString tag.toNat ++ s!" at offset {offset}"
  | .badSegmentKind offset kind =>
    "unknown segment kind " ++ toString kind.toNat ++ s!" at offset {offset}"
  | .invalidUtf8 offset => s!"invalid UTF-8 at offset {offset}"
  | .badTime offset => s!"time out of range at offset {offset}"
  | .malformed offset reason => s!"malformed literal at offset {offset}: " ++ reason.message

end DecodeError

/-- The bytes not yet read and their place in the whole buffer. -/
structure ByteInput where
  offset : Nat
  rest : List UInt8
  deriving Repr

/-- A reader takes bytes from the front of its input. -/
abbrev ByteReader := StateT ByteInput (Except DecodeError)

namespace ByteReader

/-- The first `n` items of a list and the others; none when there are
fewer. -/
def split? {α : Type} : Nat → List α → Option (List α × List α)
  | 0, xs => some ([], xs)
  | _ + 1, [] => none
  | n + 1, x :: xs => (split? n xs).map fun (a, b) => (x :: a, b)

/-- The offset of the next byte. -/
def offset : ByteReader Nat := do
  return (← get).offset

/-- The next `n` bytes. -/
def take (n : Nat) : ByteReader (List UInt8) := fun input =>
  match split? n input.rest with
  | some (bytes, rest) => .ok (bytes, ⟨input.offset + n, rest⟩)
  | none => .error (.truncated input.offset n)

/-- The next byte. -/
def byte : ByteReader UInt8 := do
  match ← take 1 with
  | [b] => return b
  | _ => throw (.truncated (← offset) 1)

/-- The number whose bytes are given, most significant first. -/
def ofBigEndian (bytes : List UInt8) : Nat :=
  bytes.foldl (fun n b => n * 256 + b.toNat) 0

/-- A number in `n` bytes. -/
def number (n : Nat) : ByteReader Nat := do
  return ofBigEndian (← take n)

/-- A text of `n` bytes. -/
def utf8 (n : Nat) : ByteReader String := do
  let start ← offset
  let bytes ← take n
  match String.fromUTF8? ⟨bytes.toArray⟩ with
  | some s => return s
  | none => throw (.invalidUtf8 start)

/-- A name after its length. -/
def name : ByteReader String := do
  utf8 (← number 2)

/-- The same reader `n` times. -/
def times {α : Type} (r : ByteReader α) : Nat → ByteReader (List α)
  | 0 => return []
  | n + 1 => do
    let a ← r
    return a :: (← times r n)

/-- Gives a reader the number of bytes left, and one more, as bound. -/
def bounded {α : Type} (r : Nat → ByteReader α) : ByteReader α := fun input =>
  r (input.rest.length + 1) input

-- ============================================================ types

/-- Columns onto a heading that began at `start`; no name may stand
twice. -/
def columns (type : ByteReader DataType) (start : Nat) : Nat → Heading → ByteReader Heading
  | 0, h => return h
  | n + 1, h => do
    let columnName ← name
    let columnType ← type
    match Heading.push h ⟨columnName, columnType⟩ with
    | .ok h => columns type start n h
    | .error e => throw (.malformed start e)

/-- A heading, given a reader of types. -/
def headingOf (type : ByteReader DataType) : ByteReader Heading := do
  let start ← offset
  let count ← number 2
  columns type start count []

/-- A type with at most the given depth. -/
def typeWithin : Nat → ByteReader DataType
  | 0 => do throw (.truncated (← offset) 1)
  | depth + 1 => do
    let start ← offset
    let tag ← byte
    match tag.toNat with
    | 0 => return .bool
    | 1 => return .number
    | 2 => return .text
    | 3 => return .binary
    | 4 => return .time
    | 5 => return .tuple (← headingOf (typeWithin depth))
    | 6 => return .relation (← headingOf (typeWithin depth))
    | 7 => do
      let typeName ← name
      let h ← headingOf (typeWithin depth)
      if (← byte) == 0 then return .user ⟨typeName, h, none⟩
      else return .user ⟨typeName, h, some (← typeWithin depth)⟩
    | 8 => return .code
    | 9 => return .void
    | _ => throw (.badTypeTag start tag)

/-- A type. -/
def type : ByteReader DataType := bounded typeWithin

/-- A heading. -/
def heading : ByteReader Heading := headingOf type

-- =========================================================== values

/-- Sixteen bytes as a number. -/
def decimal : ByteReader Decimal := do
  let bytes ← take 16
  return Decimal.ofBytes (bytes.take 4) (bytes.drop 4)

/-- The integer that eight bytes hold in two's complement. -/
def signed64 (n : Nat) : Int :=
  if n < 0x8000000000000000 then n else (n : Int) - 0x10000000000000000

/-- A number of milliseconds as a moment. -/
def moment : ByteReader Moment := do
  let start ← offset
  let n ← number 8
  match Moment.ofMillis? (signed64 n) with
  | some m => return m
  | none => throw (.badTime start)

/-- A value with at most the given depth. -/
def valueWithin : Nat → ByteReader Value
  | 0 => do throw (.truncated (← offset) 1)
  | depth + 1 => do
    let start ← offset
    let tag ← byte
    match tag.toNat with
    | 0 => return .void
    | 1 => return .bool ((← byte) != 0)
    | 2 => return .number (← decimal)
    | 3 => return .text (← utf8 (← number 4))
    | 4 => return .binary (← take (← number 4))
    | 5 => return .time (← moment)
    | 6 => do
      let count ← number 2
      let field : ByteReader (String × Value) := do
        let n ← name
        return (n, ← valueWithin depth)
      return .tuple (← times field count)
    | 7 => do
      let h ← heading
      let count ← number 4
      return .relation h (← times (times (valueWithin depth) h.length) count)
    | 8 => return .heading (← heading)
    | _ => throw (.badValueTag start tag)

/-- A value. -/
def value : ByteReader Value := bounded valueWithin

-- ===================================================== instructions

/-- Reads until nothing is left, at most the given number of times. -/
def allWithin {α : Type} (r : ByteReader α) : Nat → ByteReader (List α)
  | 0 => return []
  | n + 1 => do
    if (← get).rest.isEmpty then return []
    else
      let a ← r
      return a :: (← allWithin r n)

/-- Everything in a run of bytes that begins at `start`, read on its
own. -/
def nested {α : Type} (r : ByteReader α) (start : Nat) (code : List UInt8) :
    ByteReader (List α) := fun input =>
  match bounded (allWithin r) ⟨start, code⟩ with
  | .ok (out, _) => .ok (out, input)
  | .error e => .error e

/-- The kind of a segment. -/
def segmentKind : ByteReader SegmentKind := do
  let start ← offset
  let b ← byte
  match SegmentKind.ofByte? b with
  | some kind => return kind
  | none => throw (.badSegmentKind start b)

/-- A segment, given a reader of instructions for its code. -/
def segmentOf (instruction : ByteReader Instruction) : ByteReader Instruction := do
  let segmentName ← name
  let kind ← segmentKind
  let accums ← number 2
  let flags ← byte
  let lookup ← heading
  let length ← number 4
  let start ← offset
  let code ← take length
  let body ← nested instruction start code
  return .loadSegment
    { name := segmentName, kind, accums, flags := .ofBits flags.toNat, lookup, code } body

/-- An instruction with segments nested at most to the given depth. -/
def instructionWithin : Nat → ByteReader Instruction
  | 0 => do throw (.truncated (← offset) 1)
  | depth + 1 => do
    let start ← offset
    let b ← byte
    match Opcode.ofByte? b with
    | none => throw (.unknownOpcode start b)
    | some .finish => return .finish
    | some .loadValue => return .loadValue (← value)
    | some .loadCatalog => return .loadCatalog (← name)
    | some .loadCatalogRef => return .loadCatalogRef (← name)
    | some .loadField => return .loadField (← name)
    | some .loadComponent => return .loadComponent (← name)
    | some .loadTupleField => return .loadTupleField (← name)
    | some .loadAccumulators => return .loadAccumulators
    | some .loadLookup => return .loadLookup
    | some .loadSegment => segmentOf (instructionWithin depth)
    | some .call => do
      let callee ← name
      return .call callee (← byte).toNat
    | some .callVariadic => do
      let callee ← name
      let fixed ← byte
      return .callVariadic callee fixed.toNat (← byte).toNat
    | some .callVariadicTable => do
      let callee ← name
      let fixed ← byte
      return .callVariadicTable callee fixed.toNat (← byte).toNat

/-- An instruction. -/
def instruction : ByteReader Instruction := bounded instructionWithin

/-- Every instruction up to the end. -/
def instructions : ByteReader (List Instruction) := bounded (allWithin instruction)

end ByteReader

namespace Instruction

/-- The instructions of a whole buffer. -/
def decodeAll (bytes : List UInt8) : Except DecodeError (List Instruction) := do
  let (out, _) ← ByteReader.instructions.run ⟨0, bytes⟩
  return out

/-- The instructions of a buffer up to its end or its first error, each
with the offset after it. -/
def decodeSteps : Nat → ByteInput → List (Instruction × Nat) × Option DecodeError
  | 0, _ => ([], none)
  | fuel + 1, input =>
    if input.rest.isEmpty then ([], none)
    else
      match ByteReader.instruction.run input with
      | .ok (i, next) =>
        let (out, stop) := decodeSteps fuel next
        ((i, next.offset) :: out, stop)
      | .error e => ([], some e)

end Instruction

end RelQuery
