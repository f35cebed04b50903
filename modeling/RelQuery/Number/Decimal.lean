/-
Decimal numbers: a sign, a mantissa below 2^96 and at most 28 digits
after the point.

Trailing zeros after the point are part of a number and are kept by
reading and writing; `normalize` strips them. Reading rounds what does
not fit once, at the first digit that is left out, and drops the sign
of zero; negation keeps it.
-/
import RelQuery.Text.Blank

namespace RelQuery

/-- A sign, a mantissa and a count of digits after the point. -/
structure Decimal where
  negative : Bool
  mantissa : Nat
  scale : Nat
  mantissa_lt : mantissa < 0x1000000000000000000000000
  scale_le : scale ≤ 28
  deriving DecidableEq, Repr

namespace Decimal

/-- The number zero without digits after the point. -/
def zero : Decimal :=
  ⟨false, 0, 0, by decide, by decide⟩

instance : Inhabited Decimal := ⟨zero⟩

/-- The parts as a number, if they are in range. Zero has no sign. -/
def ofParts? (negative : Bool) (mantissa scale : Nat) : Option Decimal :=
  if h : mantissa < 0x1000000000000000000000000 ∧ scale ≤ 28 then
    some ⟨negative && mantissa != 0, mantissa, scale, h.1, h.2⟩
  else none

/-- A number with as many digits after the point as there may be. -/
def finest (negative : Bool) (mantissa : Nat) (h : mantissa < 0x1000000000000000000000000) :
    Decimal :=
  ⟨negative, mantissa, 28, h, by decide⟩

/-- A natural number, if it is in range. -/
def ofNat? (n : Nat) : Option Decimal :=
  ofParts? false n 0

/-- The number with its sign turned; zero gets one too. -/
def neg (d : Decimal) : Decimal :=
  { d with negative := !d.negative }

-- ========================================================== reading

/-- The number one unit in its last place higher. A mantissa that
leaves its range loses one digit after the point instead. -/
def roundUp? (mantissa scale : Nat) : Option (Nat × Nat) :=
  if mantissa + 1 < 0x1000000000000000000000000 then some (mantissa + 1, scale)
  else if scale = 0 then none
  else some ((mantissa + 5) / 10, scale - 1)

/-- Ends a number that takes no more digits. What is left of the text
may hold only digits and underscores; a first digit of five or more
rounds up. -/
def roundOff (mantissa scale : Nat) (left : List Char) : Option (Nat × Nat) :=
  if left.all fun c => c.isDigit || c == '_' then
    match left with
    | c :: _ => if c.isDigit && '5' ≤ c then roundUp? mantissa scale else some (mantissa, scale)
    | [] => some (mantissa, scale)
  else none

/-- From here on a mantissa is long: one more digit may take it out of
64 bits. -/
def longFrom : Nat :=
  0xffffffffffffffff / 10 - 255

/-- Reads digits into a mantissa and a scale. `point` tells that the
point was passed, `seen` that there was a digit. Digits are taken as
long as the mantissa stays in range and the scale below 28. An
underscore in the place of the first digit left out is passed over
after a long mantissa, and stands for zero after a short one. -/
def readDigits (point seen : Bool) (mantissa scale : Nat) : List Char → Option (Nat × Nat)
  | [] => if seen then some (mantissa, scale) else none
  | c :: rest =>
    if c.isDigit then
      let next := mantissa * 10 + (c.toNat - 48)
      if next < 0x1000000000000000000000000 then
        if !point then readDigits point true next scale rest
        else if scale + 1 < 28 then readDigits point true next (scale + 1) rest
        else if mantissa < longFrom then roundOff next (scale + 1) rest
        else roundOff next (scale + 1) (rest.dropWhile (· == '_'))
      else if point then roundOff mantissa scale (c :: rest)
      else none
    else if c == '.' && !point then readDigits true seen mantissa scale rest
    else if c == '_' && seen then readDigits point true mantissa scale rest
    else none

/-- Reads an optional sign, digits and an optional point. -/
def read? : List Char → Option Decimal
  | '-' :: rest => do
    let (m, s) ← readDigits false false 0 0 rest
    ofParts? true m s
  | '+' :: rest => do
    let (m, s) ← readDigits false false 0 0 rest
    ofParts? false m s
  | text => do
    let (m, s) ← readDigits false false 0 0 text
    ofParts? false m s

-- ========================================================== writing

/-- The digits of a mantissa with the point before the last `scale`
of them. -/
def digits (mantissa scale : Nat) : List Char :=
  let all := Nat.toDigits 10 mantissa
  let all := List.replicate (scale + 1 - all.length) '0' ++ all
  if scale = 0 then all
  else all.take (all.length - scale) ++ '.' :: all.drop (all.length - scale)

/-- The written form with every digit of the scale. -/
def write (d : Decimal) : String :=
  String.ofList ((if d.negative then ['-'] else []) ++ digits d.mantissa d.scale)

/-- Strips trailing zeros after the point from a mantissa with
`scale` digits there. -/
def strip (mantissa : Nat) : Nat → Nat × Nat
  | 0 => (mantissa, 0)
  | scale + 1 =>
    if mantissa % 10 = 0 then strip (mantissa / 10) scale else (mantissa, scale + 1)

theorem strip_le (mantissa scale : Nat) :
    (strip mantissa scale).1 ≤ mantissa ∧ (strip mantissa scale).2 ≤ scale := by
  fun_induction strip mantissa scale with
  | case1 => simp
  | case2 m s h ih => omega
  | case3 m s h => simp

/-- The same number without trailing zeros after the point; zero has
no sign. -/
def normalize (d : Decimal) : Decimal :=
  if d.mantissa = 0 then zero
  else
    have h := strip_le d.mantissa d.scale
    { negative := d.negative
      mantissa := (strip d.mantissa d.scale).1
      scale := (strip d.mantissa d.scale).2
      mantissa_lt := Nat.lt_of_le_of_lt h.1 d.mantissa_lt
      scale_le := Nat.le_trans h.2 d.scale_le }

-- ==================================================== sixteen bytes

/-- The byte of a number at position `i`, the least significant being
position zero. -/
def byteAt (n i : Nat) : UInt8 :=
  UInt8.ofNat (n / Nat.pow 256 i)

/-- The bytes of a number, least significant first. -/
def littleEndian (n count : Nat) : List UInt8 :=
  (List.range count).map (byteAt n)

/-- The number whose bytes are given, least significant first. -/
def ofLittleEndian : List UInt8 → Nat
  | [] => 0
  | b :: rest => b.toNat + 256 * ofLittleEndian rest

/-- The form in sixteen bytes: two unused, the scale, the sign in the
top bit, then the mantissa, least significant byte first. -/
def toBytes (d : Decimal) : List UInt8 :=
  [0, 0, UInt8.ofNat d.scale, if d.negative then 128 else 0] ++ littleEndian d.mantissa 12

/-- Divides off `extra` digits, rounding up when the remainder of the
whole division is at least five. -/
def shorten (mantissa extra : Nat) : Nat :=
  mantissa / Nat.pow 10 extra + if 5 ≤ mantissa % Nat.pow 10 extra then 1 else 0

/-- Reads the form in sixteen bytes. Of the flag bytes only the sign
and five bits of scale count; a scale past 28 is brought down to it. -/
def ofBytes (flags mantissa : List UInt8) : Decimal :=
  let scale := (flags.getD 2 0).toNat % 32
  let negative := 128 ≤ (flags.getD 3 0).toNat
  let m := ofLittleEndian mantissa % 0x1000000000000000000000000
  have hm : m < 0x1000000000000000000000000 := Nat.mod_lt _ (by decide)
  if h : scale ≤ 28 then ⟨negative, m, scale, hm, h⟩
  else
    finest negative (shorten m (scale - 28)) <| by
      have h10 : 10 ≤ Nat.pow 10 (scale - 28) := by
        calc 10 = Nat.pow 10 1 := rfl
          _ ≤ Nat.pow 10 (scale - 28) := Nat.pow_le_pow_right (by decide) (by omega)
      have hq : m / Nat.pow 10 (scale - 28) ≤ m / 10 := Nat.div_le_div_left h10 (by decide)
      unfold shorten
      split <;> omega

end Decimal

end RelQuery
