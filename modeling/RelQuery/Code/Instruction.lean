/-
The instructions of the stack machine.

Every load pushes one value; a component or tuple field replaces the
value on top by a part of it; a call pops its arguments and pushes its
result.
-/
import RelQuery.Code.Segment
import RelQuery.Value.Basic

namespace RelQuery

/-- What follows an opcode. -/
inductive Operand where
  | name
  | value
  | arity
  | segment
  deriving DecidableEq, Repr

def Operand.write : Operand → String
  | .name => "name"
  | .value => "value"
  | .arity => "arity"
  | .segment => "segment"

/-- The operations of the machine. -/
inductive Opcode where
  /-- The end of a statement. -/
  | finish
  /-- Push a literal. -/
  | loadValue
  /-- Push the value of a catalog variable. -/
  | loadCatalog
  /-- Push a reference to a catalog entry. -/
  | loadCatalogRef
  /-- Push a column of the current row. -/
  | loadField
  /-- Replace a user type value by one of its components. -/
  | loadComponent
  /-- Replace a tuple by one of its fields. -/
  | loadTupleField
  /-- Push the accumulators of the running segment. -/
  | loadAccumulators
  /-- Push the current row. -/
  | loadLookup
  /-- Push a code segment. -/
  | loadSegment
  /-- Call with a fixed number of arguments. -/
  | call
  /-- Call with fixed and further arguments, for a value. -/
  | callVariadic
  /-- Call with fixed and further arguments, for a relation. -/
  | callVariadicTable
  deriving DecidableEq, Repr, Inhabited

namespace Opcode

def toByte : Opcode → UInt8
  | .finish => 0
  | .loadValue => 1
  | .loadCatalog => 2
  | .loadCatalogRef => 3
  | .loadField => 4
  | .loadComponent => 5
  | .loadTupleField => 6
  | .loadAccumulators => 7
  | .loadLookup => 8
  | .loadSegment => 9
  | .call => 10
  | .callVariadic => 11
  | .callVariadicTable => 12

def ofByte? (b : UInt8) : Option Opcode :=
  match b.toNat with
  | 0 => some .finish
  | 1 => some .loadValue
  | 2 => some .loadCatalog
  | 3 => some .loadCatalogRef
  | 4 => some .loadField
  | 5 => some .loadComponent
  | 6 => some .loadTupleField
  | 7 => some .loadAccumulators
  | 8 => some .loadLookup
  | 9 => some .loadSegment
  | 10 => some .call
  | 11 => some .callVariadic
  | 12 => some .callVariadicTable
  | _ => none

/-- The operands after the opcode, in order. -/
def operands : Opcode → List Operand
  | .finish | .loadAccumulators | .loadLookup => []
  | .loadValue => [.value]
  | .loadCatalog | .loadCatalogRef | .loadField | .loadComponent | .loadTupleField => [.name]
  | .loadSegment => [.segment]
  | .call => [.name, .arity]
  | .callVariadic | .callVariadicTable => [.name, .arity, .arity]

def write : Opcode → String
  | .finish => "END"
  | .loadValue => "LOAD_VALUE"
  | .loadCatalog => "LOAD_CATALOG"
  | .loadCatalogRef => "LOAD_CATALOG_REF"
  | .loadField => "LOAD_FIELD"
  | .loadComponent => "LOAD_COMPONENT"
  | .loadTupleField => "LOAD_TUPLE_FIELD"
  | .loadAccumulators => "LOAD_ACC_BLOCK"
  | .loadLookup => "LOAD_LOOKUP"
  | .loadSegment => "LOAD_SEGMENT"
  | .call => "CALL"
  | .callVariadic => "CALL_VAR"
  | .callVariadicTable => "CALL_VAR_TABLE"

end Opcode

/-- An instruction with its operands. A segment stands with the
instructions that its code holds. -/
inductive Instruction where
  | finish
  | loadValue (value : Value)
  | loadCatalog (name : String)
  | loadCatalogRef (name : String)
  | loadField (name : String)
  | loadComponent (name : String)
  | loadTupleField (name : String)
  | loadAccumulators
  | loadLookup
  | loadSegment (block : CodeBlock) (body : List Instruction)
  | call (name : String) (arity : Nat)
  | callVariadic (name : String) (fixed more : Nat)
  | callVariadicTable (name : String) (fixed more : Nat)
  deriving Repr, Inhabited

/-- The operation of an instruction. -/
def Instruction.opcode : Instruction → Opcode
  | .finish => .finish
  | .loadValue _ => .loadValue
  | .loadCatalog _ => .loadCatalog
  | .loadCatalogRef _ => .loadCatalogRef
  | .loadField _ => .loadField
  | .loadComponent _ => .loadComponent
  | .loadTupleField _ => .loadTupleField
  | .loadAccumulators => .loadAccumulators
  | .loadLookup => .loadLookup
  | .loadSegment .. => .loadSegment
  | .call .. => .call
  | .callVariadic .. => .callVariadic
  | .callVariadicTable .. => .callVariadicTable

end RelQuery
