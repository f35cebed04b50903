/-
Numbers of 53 binary digits, as data exchange passes them on.

A number that is not an integer of 64 bits is exchanged as the double
that its digits name: the digits as an integer, times or divided by a
power of ten, each step rounded to the nearest double and a tie to the
even one. A double is written with the fewest digits that name it and
no exponent; of two numbers with as few digits the nearer one is
written, and of two that are equally near the larger.
-/

namespace RelQuery

/-- The number `mantissa * 2 ^ exponent`. -/
structure Double where
  mantissa : Nat
  exponent : Int
  deriving DecidableEq, Repr

namespace Double

-- ========================================================= rounding

/-- A quotient rounded to the nearest number, a tie to the even one. -/
def roundQuotient (n d : Nat) : Nat :=
  let q := n / d
  let twice := 2 * (n % d)
  if d < twice || (twice == d && q % 2 == 1) then q + 1 else q

/-- A fraction times a power of two, as a fraction. -/
def scaled (n d : Nat) (power : Int) : Nat × Nat :=
  if power < 0 then (n, d * Nat.pow 2 power.natAbs) else (n * Nat.pow 2 power.toNat, d)

/-- The double nearest to a fraction; none when it is too large. -/
def nearest? (n d : Nat) : Option Double :=
  if n = 0 then some ⟨0, -1074⟩
  else
    let estimate : Int := (n.log2 : Int) - d.log2 - 53
    let (a, b) := scaled n d (-estimate)
    let exponent := max (if a / b < 0x20000000000000 then estimate else estimate + 1) (-1074)
    let (a, b) := scaled n d (-exponent)
    let mantissa := roundQuotient a b
    let (mantissa, exponent) :=
      if mantissa = 0x20000000000000 then (0x10000000000000, exponent + 1) else (mantissa, exponent)
    if 971 < exponent then none else some ⟨mantissa, exponent⟩

/-- The number as a fraction. -/
def fraction (x : Double) : Nat × Nat :=
  scaled x.mantissa 1 x.exponent

/-- The nearest double to a product. -/
def mul? (x y : Double) : Option Double :=
  nearest? (x.fraction.1 * y.fraction.1) (x.fraction.2 * y.fraction.2)

/-- The nearest double to a quotient; the divisor is not zero. -/
def div? (x y : Double) : Option Double :=
  nearest? (x.fraction.1 * y.fraction.2) (x.fraction.2 * y.fraction.1)

/-- Divides by large powers of ten until the rest of the exponent is
one that a double can hold. -/
def lower? (fuel : Nat) (x : Double) (exponent : Nat) : Option Double :=
  match fuel with
  | 0 => none
  | fuel + 1 =>
    if x.mantissa = 0 then some x
    else if exponent ≤ 308 then do x.div? (← nearest? (Nat.pow 10 exponent) 1)
    else do lower? fuel (← x.div? (← nearest? (Nat.pow 10 308) 1)) (exponent - 308)

/-- The double that decimal digits and an exponent name; none when it
is too large. -/
def ofScientific? (digits : Nat) (exponent : Int) : Option Double := do
  let x ← nearest? digits 1
  if exponent < 0 then lower? (exponent.natAbs / 308 + 2) x exponent.natAbs
  else if x.mantissa = 0 then some x
  else if 308 < exponent then none
  else x.mul? (← nearest? (Nat.pow 10 exponent.toNat) 1)

-- ========================================================== writing

/-- The multiple of a power of ten that names the double: of its two
neighbours the nearer one, or the upper one when both are equally near,
if it rounds to the double, else the other. -/
def namedBy? (x : Double) (power : Int) : Option Nat :=
  -- in units of a quarter of the double's last digit
  let unit := scaled 1 1 (x.exponent - 2)
  let step := if power < 0 then (1, Nat.pow 10 power.natAbs) else (Nat.pow 10 power.toNat, 1)
  let value := 4 * x.mantissa
  let low := if x.mantissa = 0x10000000000000 && -1074 < x.exponent then value - 1 else value - 2
  let high := value + 2
  let isIn (t : Nat) : Bool :=
    let p := t * step.1 * unit.2
    let l := low * unit.1 * step.2
    let h := high * unit.1 * step.2
    if x.mantissa % 2 = 0 then l ≤ p && p ≤ h else l < p && p < h
  let whole := value * unit.1 * step.2
  let part := step.1 * unit.2
  let below := whole / part
  let nearer := (2 * whole + part) / (2 * part)
  let other := if nearer = below then below + 1 else below
  if nearer ≠ 0 && isIn nearer then some nearer
  else if other ≠ 0 && isIn other then some other
  else none

/-- Looks for the largest power of ten that has a multiple which names
the double. -/
def shortestFrom (x : Double) : Nat → Int → Nat × Int
  | 0, power => (0, power)
  | fuel + 1, power =>
    match x.namedBy? power with
    | some digits => (digits, power)
    | none => shortestFrom x fuel (power - 1)

/-- The fewest decimal digits that name a double, and their power of
ten. -/
def shortest (x : Double) : Nat × Int :=
  if x.mantissa = 0 then (0, 0)
  else
    let bits : Int := x.exponent + x.mantissa.log2 + 1
    shortestFrom x 30 (bits * 30103 / 100000 + 1)

/-- The written form, without an exponent. -/
def write (x : Double) : List Char :=
  let (digits, power) := x.shortest
  let shown := Nat.toDigits 10 digits
  if 0 ≤ power then shown ++ List.replicate power.toNat '0'
  else
    let places := power.natAbs
    let padded := List.replicate (places + 1 - shown.length) '0' ++ shown
    padded.take (padded.length - places) ++ '.' :: padded.drop (padded.length - places)

end Double

end RelQuery
