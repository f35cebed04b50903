/-
Code as text: one instruction a line, nested segments indented.
-/
import RelQuery.Code.Decode

namespace RelQuery

namespace Instruction

/-- The operands of an instruction as they are listed. -/
def writeOperands : Instruction → String
  | .finish | .loadAccumulators | .loadLookup => ""
  | .loadValue v => " " ++ v.write
  | .loadCatalog n | .loadCatalogRef n | .loadField n | .loadComponent n | .loadTupleField n =>
    " " ++ n
  | .call n arity => s!" {n}/{arity}"
  | .callVariadic n fixed more | .callVariadicTable n fixed more => s!" {n}/{fixed}+{more}"
  | .loadSegment block _ =>
    s!" {block.name} [" ++ block.kind.write ++ s!"] accums={block.accums} lookup=" ++
      Heading.write block.lookup ++
      (if block.flags = .none then "" else " flags=" ++ block.flags.write)

/-- Two blanks for each level. -/
def indent (depth : Nat) : String :=
  String.ofList (List.replicate (2 * depth) ' ')

/-- The line of an instruction, without what is nested in it. -/
def line (depth : Nat) (i : Instruction) : String :=
  indent depth ++ i.opcode.write ++ i.writeOperands

mutual

/-- The lines of an instruction and of what is nested in it. -/
def lines (depth : Nat) : Instruction → List String
  | .loadSegment block body => line depth (.loadSegment block body) :: linesAll (depth + 1) body
  | i => [line depth i]

/-- The lines of instructions one after another. -/
def linesAll (depth : Nat) : List Instruction → List String
  | [] => []
  | i :: rest => lines depth i ++ linesAll depth rest

end

/-- The listing of instructions; every line ends in a newline. -/
def listing (instructions : List Instruction) : String :=
  String.join ((linesAll 0 instructions).map (· ++ "\n"))

/-- The listing of a buffer. -/
def listCode (bytes : List UInt8) : Except DecodeError String := do
  return listing (← decodeAll bytes)

end Instruction

/-- The bytes of a buffer, for inspection. -/
def dumpBytes (bytes : List UInt8) : String :=
  "ByteCode[" ++ String.intercalate " " (bytes.map Text.hexByte) ++ "]"

end RelQuery
