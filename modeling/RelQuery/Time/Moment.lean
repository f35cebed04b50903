/-
Moments: a date and a time of day, to the nanosecond.

Dates follow the Gregorian calendar extended in both directions, from
the year -262143 to the year 262142. A second count of sixty is a leap
second: it is kept as one whole second on top of second fifty-nine.

Days are counted from 1970-01-01. The count and the calendar form are
converted through eras of 400 years that begin on the first of March,
so that the leap day is the last day of its year.
-/
import RelQuery.Text.Blank

namespace RelQuery

/-- Seconds since 1970-01-01 00:00:00 and nanoseconds on top of them;
a leap second has more than one second of the latter. -/
structure Moment where
  second : Int
  nano : Nat
  deriving DecidableEq, Repr, Inhabited

namespace Moment

-- ========================================================= calendar

/-- The days from 1970-01-01 to a date, with `month` from 1 to 12. -/
def daysOfDate (year : Int) (month day : Nat) : Int :=
  let y := if month ≤ 2 then year - 1 else year
  let era := y.fdiv 400
  let yearOfEra := y.fmod 400
  let monthFromMarch : Int := ((month + 9) % 12 : Nat)
  let dayOfYear := (153 * monthFromMarch + 2).fdiv 5 + day - 1
  let dayOfEra := yearOfEra * 365 + yearOfEra.fdiv 4 - yearOfEra.fdiv 100 + dayOfYear
  era * 146097 + dayOfEra - 719468

/-- Year, month and day of a count of days from 1970-01-01. -/
def dateOfDays (days : Int) : Int × Nat × Nat :=
  let z := days + 719468
  let era := z.fdiv 146097
  let dayOfEra := z.fmod 146097
  let yearOfEra :=
    (dayOfEra - dayOfEra.fdiv 1460 + dayOfEra.fdiv 36524 - dayOfEra.fdiv 146096).fdiv 365
  let dayOfYear := dayOfEra - (365 * yearOfEra + yearOfEra.fdiv 4 - yearOfEra.fdiv 100)
  let monthFromMarch := (5 * dayOfYear + 2).fdiv 153
  let day := dayOfYear - (153 * monthFromMarch + 2).fdiv 5 + 1
  let month := if monthFromMarch < 10 then monthFromMarch + 3 else monthFromMarch - 9
  let year := yearOfEra + era * 400
  (if month ≤ 2 then year + 1 else year, month.toNat, day.toNat)

/-- Whether a year has a 29th of February. -/
def isLeapYear (year : Int) : Bool :=
  year.fmod 4 == 0 && (year.fmod 100 != 0 || year.fmod 400 == 0)

/-- The number of days of a month. -/
def daysInMonth (year : Int) (month : Nat) : Nat :=
  match month with
  | 2 => if isLeapYear year then 29 else 28
  | 4 | 6 | 9 | 11 => 30
  | _ => 31

/-- The years that dates may have. -/
def yearInRange (year : Int) : Bool :=
  -262143 ≤ year && year ≤ 262142

/-- The moment of a calendar date and a time of day, if both exist.
Second sixty is a leap second. -/
def ofFields? (year : Int) (month day hour minute second nano : Nat) : Option Moment :=
  if yearInRange year && 1 ≤ month && month ≤ 12 && 1 ≤ day && day ≤ daysInMonth year month &&
      hour ≤ 23 && minute ≤ 59 && second ≤ 60 then
    let leap := second == 60
    let whole := daysOfDate year month day * 86400 +
      ((hour * 3600 + minute * 60 + if leap then 59 else second : Nat) : Int)
    some ⟨whole, if leap then nano + 1000000000 else nano⟩
  else none

-- ===================================================== milliseconds

/-- Milliseconds since 1970-01-01; a leap second counts on. -/
def toMillis (m : Moment) : Int :=
  m.second * 1000 + (m.nano / 1000000 : Nat)

/-- The moment a number of milliseconds after 1970-01-01, if its year
is in range. -/
def ofMillis? (ms : Int) : Option Moment :=
  let second := ms.fdiv 1000
  if yearInRange (dateOfDays (second.fdiv 86400)).1 then
    some ⟨second, (ms.fmod 1000).toNat * 1000000⟩
  else none

-- ========================================================== writing

/-- Four digits; years outside 0 to 9999 carry a sign. -/
def writeYear (year : Int) : String :=
  if 0 ≤ year && year ≤ 9999 then Text.padded 4 year.toNat
  else (if year < 0 then "-" else "+") ++ Text.padded 4 year.natAbs

/-- Date and time of day with `between` separating them. -/
def writeWith (between : String) (m : Moment) : String :=
  let (year, month, day) := dateOfDays (m.second.fdiv 86400)
  let ofDay := (m.second.fmod 86400).toNat
  writeYear year ++ "-" ++ Text.padded 2 month ++ "-" ++ Text.padded 2 day ++ between ++
    Text.padded 2 (ofDay / 3600) ++ ":" ++ Text.padded 2 (ofDay / 60 % 60) ++ ":" ++
    Text.padded 2 (ofDay % 60 + m.nano / 1000000000)

/-- The written form, to the second. -/
def write (m : Moment) : String :=
  m.writeWith " "

/-- The fraction of a second in three, six or nine digits; none when
it is zero. -/
def writeFraction (nano : Nat) : String :=
  if nano = 0 then ""
  else if nano % 1000000 = 0 then "." ++ Text.padded 3 (nano / 1000000)
  else if nano % 1000 = 0 then "." ++ Text.padded 6 (nano / 1000)
  else "." ++ Text.padded 9 nano

/-- The form used in data exchange, with a `T` and the fraction. -/
def writeExchange (m : Moment) : String :=
  m.writeWith "T" ++ writeFraction (m.nano % 1000000000)

-- ========================================================== reading

/-- The fields that a time text may give, in the order of reading. -/
structure Fields where
  year : Int := 0
  month : Nat := 0
  day : Nat := 0
  hour : Nat := 0
  minute : Nat := 0
  second : Nat := 0
  nano : Nat := 0
  deriving Repr, Inhabited

/-- One item of the form of a time text. -/
inductive Item where
  /-- One to four digits, or a sign and any number of digits. -/
  | year
  | month
  | day
  | hour
  | minute
  | second
  /-- A point and digits, or nothing. -/
  | fraction
  /-- Any amount of blank space. -/
  | blank
  | mark (c : Char)
  deriving Repr

/-- The value of a list of decimal digits. -/
def valueOf (digits : List Char) : Nat :=
  digits.foldl (fun n c => n * 10 + (c.toNat - 48)) 0

/-- Leading digits, at most `most` of them. -/
def takeDigits : Nat → List Char → List Char
  | 0, _ => []
  | _, [] => []
  | n + 1, c :: rest => if c.isDigit then c :: takeDigits n rest else []

/-- A number of one to `most` digits at the front of a text, and what
follows it. A value past 63 bits is refused. -/
def number? (most : Nat) (text : List Char) : Option (Nat × List Char) :=
  let digits := takeDigits most text
  let n := valueOf digits
  if digits.isEmpty || 0x8000000000000000 ≤ n then none else some (n, text.drop digits.length)

/-- A two-digit field, blanks before it skipped. -/
def field? (text : List Char) : Option (Nat × List Char) :=
  number? 2 (Text.trimStart text)

/-- A year, blanks before it skipped. -/
def year? (text : List Char) : Option (Int × List Char) :=
  match Text.trimStart text with
  | '-' :: rest => (number? rest.length rest).map fun (n, r) => (-(n : Int), r)
  | '+' :: rest => (number? rest.length rest).map fun (n, r) => ((n : Int), r)
  | rest => (number? 4 rest).map fun (n, r) => ((n : Int), r)

/-- A fraction as nanoseconds; digits past the ninth are skipped. -/
def fraction? (text : List Char) : Option (Nat × List Char) :=
  let digits := takeDigits 9 text
  if digits.isEmpty then none
  else some (valueOf digits * Nat.pow 10 (9 - digits.length),
    (text.drop digits.length).dropWhile Char.isDigit)

/-- Reads the items of a form one after another; nothing may follow
the last. -/
def readItems (fields : Fields) : List Item → List Char → Option Fields
  | [], [] => some fields
  | [], _ :: _ => none
  | .year :: items, text => do
    let (n, rest) ← year? text
    readItems { fields with year := n } items rest
  | .month :: items, text => do
    let (n, rest) ← field? text
    readItems { fields with month := n } items rest
  | .day :: items, text => do
    let (n, rest) ← field? text
    readItems { fields with day := n } items rest
  | .hour :: items, text => do
    let (n, rest) ← field? text
    readItems { fields with hour := n } items rest
  | .minute :: items, text => do
    let (n, rest) ← field? text
    readItems { fields with minute := n } items rest
  | .second :: items, text => do
    let (n, rest) ← field? text
    readItems { fields with second := n } items rest
  | .fraction :: items, text =>
    match text with
    | '.' :: digits => do
      let (n, rest) ← fraction? digits
      readItems { fields with nano := n } items rest
    | _ => readItems fields items text
  | .blank :: items, text => readItems fields items (Text.trimStart text)
  | .mark c :: items, text =>
    match text with
    | d :: rest => if c == d then readItems fields items rest else none
    | [] => none

/-- The form of a date. -/
def dateItems : List Item :=
  [.year, .mark '-', .month, .mark '-', .day]

/-- The form of a date and a time of day. -/
def dateTimeItems : List Item :=
  dateItems ++ [.blank, .hour, .mark ':', .minute, .mark ':', .second]

/-- The form used in data exchange. -/
def exchangeItems : List Item :=
  [.year, .blank, .mark '-', .month, .blank, .mark '-', .day, .blank, .mark 'T', .hour, .blank,
    .mark ':', .minute, .blank, .mark ':', .second, .fraction, .blank]

/-- The moment that fields describe, if there is one. -/
def Fields.moment? (f : Fields) : Option Moment :=
  ofFields? f.year f.month f.day f.hour f.minute f.second f.nano

/-- Reads a date with a time of day, or a date alone, at midnight. -/
def read? (text : List Char) : Option Moment :=
  match (readItems {} dateTimeItems text).bind Fields.moment? with
  | some m => some m
  | none => (readItems {} dateItems text).bind Fields.moment?

/-- Reads the form used in data exchange. -/
def readExchange? (text : List Char) : Option Moment :=
  (readItems {} exchangeItems text).bind Fields.moment?

end Moment

end RelQuery
