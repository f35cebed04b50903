/-
The form of values in data exchange.

Numbers are written as strings, so that no digit is lost; they read
from strings, with or without an exponent, and from numbers. A number
that is not an integer of 64 bits is read as the double it names.
-/
import RelQuery.Number.Double
import RelQuery.Type.Exchange
import RelQuery.Value.Basic

namespace RelQuery

namespace Decimal

/-- Rounds half up to 28 digits after the point, from a number with
`extra` digits more. The sign stays, also where nothing else does. -/
def dropPlaces (d : Decimal) (extra : Nat) : Decimal :=
  finest d.negative ((2 * d.mantissa + Nat.pow 10 extra) / (2 * Nat.pow 10 extra)) <| by
    have hm := d.mantissa_lt
    have hpos : 0 < Nat.pow 10 extra := Nat.pow_pos (by decide)
    rw [Nat.div_lt_iff_lt_mul (by omega)]
    omega

/-- The number times a power of ten, if it is in range. Digits past
the last place are rounded off. -/
def shift? (d : Decimal) (exponent : Int) : Option Decimal :=
  if exponent < 0 then
    let n := exponent.natAbs
    if 28 < n then none
    else if d.scale + n ≤ 28 then ofParts? d.negative d.mantissa (d.scale + n)
    else some (d.dropPlaces (d.scale + n - 28))
  else
    let n := exponent.toNat
    if n ≤ d.scale then ofParts? d.negative d.mantissa (d.scale - n)
    else if 28 < n then none
    else (ofParts? d.negative (d.mantissa * Nat.pow 10 (n - d.scale)) 0).map normalize

/-- Reads the size of an exponent: digits, a plus before them or not. -/
def exponentSize? : List Char → Option Nat
  | '+' :: digits | digits =>
    if digits.isEmpty || !digits.all Char.isDigit then none
    else some (Json.Reader.valueOf digits)

/-- Reads an exponent: its size after an optional minus. -/
def exponent? : List Char → Option Int
  | '-' :: size => (exponentSize? size).map fun n => -(n : Int)
  | size => (exponentSize? size).map fun n => (n : Int)

/-- Reads a number with an exponent. -/
def readScientific? (text : List Char) : Option Decimal :=
  let isMark (c : Char) : Bool := c == 'e' || c == 'E'
  match text.dropWhile (!isMark ·) with
  | _ :: exponent => do
    let d ← read? (text.takeWhile (!isMark ·))
    d.shift? (← exponent? exponent)
  | [] => none

/-- Reads the double that digits and an exponent name. -/
def ofDouble? (negative : Bool) (digits : Nat) (exponent : Int) : Option Decimal := do
  let x ← Double.ofScientific? digits exponent
  read? ((if negative then ['-'] else []) ++ x.write)

/-- Reads the exchange form. -/
def ofJson? : Json → Option Decimal
  | .string s =>
    match read? s.toList with
    | some d => some d
    | none => readScientific? s.toList
  | .int n => ofParts? (n < 0) n.natAbs 0
  | .real negative digits exponent => ofDouble? negative digits exponent
  | _ => none

end Decimal

namespace Value

mutual

/-- The exchange form. -/
def toJson : Value → Json
  | .void => .string "Void"
  | .bool b => .object [("Bool", .bool b)]
  | .number d => .object [("Number", .string d.write)]
  | .text s => .object [("Text", .string s)]
  | .binary bytes => .object [("Binary", .array (bytes.map fun b => .nat b.toNat))]
  | .time m => .object [("Time", .string m.writeExchange)]
  | .tuple fields => .object [("Tuple", .array (fieldForms fields))]
  | .relation h rows =>
    .object [("Relation", .object [("heading", Heading.toJson h), ("rows", .array (rowForms rows))])]
  | .heading h => .object [("Heading", Heading.toJson h)]

def fieldForms : List (String × Value) → List Json
  | [] => []
  | (name, v) :: rest => .array [.string name, v.toJson] :: fieldForms rest

def rowForms : List (List Value) → List Json
  | [] => []
  | row :: rest => .array (cellForms row) :: rowForms rest

def cellForms : List Value → List Json
  | [] => []
  | v :: rest => v.toJson :: cellForms rest

end

/-- Reads a name and a value. -/
def fieldOf? (value : Json → Option Value) : Json → Option (String × Value)
  | .array [name, v] => do return (← name.string?, ← value v)
  | _ => none

/-- Reads a value with at most the given depth of nesting. -/
def ofJsonDepth? : Nat → Json → Option Value
  | 0, _ => none
  | depth + 1, j => do
    match ← Json.choice? j with
    | ("Bool", some b) => return .bool (← b.bool?)
    | ("Number", some n) => return .number (← Decimal.ofJson? n)
    | ("Text", some s) => return .text (← s.string?)
    | ("Binary", some bytes) =>
      let bytes ← Json.each? (Json.natBelow? 256) (← bytes.array?)
      return .binary (bytes.map UInt8.ofNat)
    | ("Time", some t) => return .time (← Moment.readExchange? (← t.string?).toList)
    | ("Tuple", some fields) =>
      return .tuple (← Json.each? (fieldOf? (ofJsonDepth? depth)) (← fields.array?))
    | ("Relation", some r) =>
      match ← Json.record? ["heading", "rows"] r with
      | [some h, some rows] =>
        let row (r : Json) : Option (List Value) := do
          Json.each? (ofJsonDepth? depth) (← r.array?)
        return .relation (← Heading.ofJson? h) (← Json.each? row (← rows.array?))
      | _ => none
    | ("Heading", some h) => return .heading (← Heading.ofJson? h)
    | ("Void", content) => if Json.isUnit content then return .void else none
    | _ => none

/-- Reads the exchange form. -/
def ofJson? (j : Json) : Option Value :=
  ofJsonDepth? 128 j

end Value

end RelQuery
