/-
Bytes on their way into a buffer.

Writing stops at the first fault; the bytes before it stay written. A
chunk is therefore a list of bytes with, perhaps, a fault at its end,
and appending to a faulty chunk changes nothing.
-/
import RelQuery.Diagnostic.Code
import RelQuery.Type.Basic

namespace RelQuery

/-- Why something cannot be written. -/
inductive EncodeError where
  | nameTooLong (name : String)
  | arityOverflow (name : String) (arity : Nat)
  | placeholder (type : DataType)
  | tooLarge (what : String)
  deriving Repr

namespace EncodeError

def message : EncodeError → String
  | .nameTooLong name => s!"name '{name}' is too long to encode"
  | .arityOverflow name arity => s!"'{name}' called with {arity} arguments, more than 255"
  | .placeholder type => "unresolved placeholder type " ++ type.write ++ " reached emission"
  | .tooLarge what => s!"{what} too large to encode"

def code : EncodeError → Code
  | .placeholder _ => Code.placeholderLeft
  | .arityOverflow .. => Code.unsupported
  | _ => Code.defect

end EncodeError

/-- Written bytes, and the fault that stopped the writing. -/
structure Chunk where
  bytes : List UInt8
  fault : Option EncodeError
  deriving Repr, Inhabited

namespace Chunk

/-- Nothing written. -/
def empty : Chunk := ⟨[], none⟩

/-- Bytes written without a fault. -/
def ofBytes (bytes : List UInt8) : Chunk := ⟨bytes, none⟩

/-- A fault before anything is written. -/
def fail (e : EncodeError) : Chunk := ⟨[], some e⟩

/-- One after the other; nothing follows a fault. -/
def append (a b : Chunk) : Chunk :=
  match a.fault with
  | some _ => a
  | none => ⟨a.bytes ++ b.bytes, b.fault⟩

instance : Append Chunk := ⟨append⟩

/-- The bytes, if everything was written. -/
def result (c : Chunk) : Except EncodeError (List UInt8) :=
  match c.fault with
  | some e => .error e
  | none => .ok c.bytes

-- ========================================================== numbers

/-- The lowest `count` bytes of a number, most significant first. -/
def bigEndianBytes (n : Nat) : Nat → List UInt8
  | 0 => []
  | count + 1 => UInt8.ofNat (n / Nat.pow 256 count) :: bigEndianBytes n count

/-- One byte. -/
def byte (b : UInt8) : Chunk := ofBytes [b]

/-- A number in `count` bytes, if it fits. -/
def sized (count n : Nat) (otherwise : EncodeError) : Chunk :=
  if n < Nat.pow 256 count then ofBytes (bigEndianBytes n count) else fail otherwise

/-- A length in two bytes. -/
def length16 (n : Nat) (what : String) : Chunk := sized 2 n (.tooLarge what)

/-- A length in four bytes. -/
def length32 (n : Nat) (what : String) : Chunk := sized 4 n (.tooLarge what)

-- ============================================================ names

/-- The UTF-8 bytes of a text. -/
def utf8 (s : String) : List UInt8 := s.toUTF8.data.toList

/-- A name after its length in two bytes. -/
def name (s : String) : Chunk :=
  sized 2 (utf8 s).length (.nameTooLong s) ++ ofBytes (utf8 s)

/-- A number of arguments in one byte. -/
def arity (callee : String) (n : Nat) : Chunk :=
  sized 1 n (.arityOverflow callee n)

end Chunk

end RelQuery
