/-
Blank space, lines and byte positions of a text.

A text is handled as the list of its characters. Offsets, wherever
they are reported, count the bytes of the UTF-8 form; this module
holds the conversions between the two views.

`isBlank` is the Unicode property White_Space: every place that
trims, skips or splits on blank space uses it, and no other class.
-/

namespace RelQuery.Text

-- ====================================================== blank space

/-- Characters with the Unicode property White_Space. -/
def isBlank (c : Char) : Bool :=
  let n := c.toNat
  (0x09 ≤ n && n ≤ 0x0d) || n == 0x20 || n == 0x85 || n == 0xa0 || n == 0x1680 ||
    (0x2000 ≤ n && n ≤ 0x200a) || n == 0x2028 || n == 0x2029 || n == 0x202f ||
    n == 0x205f || n == 0x3000

/-- The text without its leading blanks. -/
def trimStart (text : List Char) : List Char :=
  text.dropWhile isBlank

/-- The text without its trailing blanks. -/
def trimEnd (text : List Char) : List Char :=
  (text.reverse.dropWhile isBlank).reverse

/-- The text without surrounding blanks. -/
def trim (text : List Char) : List Char :=
  trimEnd (trimStart text)

/-- Nothing but blanks. -/
def allBlank (text : List Char) : Bool :=
  text.all isBlank

/-- Collects the words of a text; `word` is the one being read, last
character first. -/
def wordsFrom (word : List Char) : List Char → List (List Char)
  | [] => if word.isEmpty then [] else [word.reverse]
  | c :: rest =>
    if isBlank c then
      if word.isEmpty then wordsFrom [] rest else word.reverse :: wordsFrom [] rest
    else
      wordsFrom (c :: word) rest

/-- The maximal runs of characters that are not blank. -/
def words (text : List Char) : List (List Char) :=
  wordsFrom [] text

-- ============================================================ lines

/-- Drops the carriage return that ends a line, given the line with
its last character first. -/
def dropReturn : List Char → List Char
  | '\r' :: line => line
  | line => line

/-- Collects the lines of a text; `line` is the one being read, last
character first. -/
def linesFrom (line : List Char) : List Char → List (List Char)
  | [] => if line.isEmpty then [] else [line.reverse]
  | c :: rest =>
    if c == '\n' then (dropReturn line).reverse :: linesFrom [] rest
    else linesFrom (c :: line) rest

/-- The lines of a text without their terminators. A line ends at a
newline, which takes one carriage return before it along; what
follows the last newline is a line only when it is not empty. -/
def lines (text : List Char) : List (List Char) :=
  linesFrom [] text

-- ================================================== byte positions

/-- Bytes of the UTF-8 form of a text. -/
def byteLength (text : List Char) : Nat :=
  text.foldl (fun n c => n + c.utf8Size) 0

/-- The longest run of leading characters that fits in `n` bytes. -/
def takeBytes : Nat → List Char → List Char
  | _, [] => []
  | n, c :: rest => if c.utf8Size ≤ n then c :: takeBytes (n - c.utf8Size) rest else []

-- =================================================== search and hex

/-- What follows `mark` at the front of a text, if it stands there. -/
def after? : List Char → List Char → Option (List Char)
  | [], text => some text
  | _ :: _, [] => none
  | m :: mark, c :: text => if m == c then after? mark text else none

/-- Whether a text begins with `mark`. -/
def startsWith (mark text : List Char) : Bool :=
  (after? mark text).isSome

/-- The character of a hexadecimal digit below 16. -/
def hexDigit (n : Nat) : Char :=
  if n < 10 then Char.ofNat (48 + n) else Char.ofNat (87 + n)

/-- Two lower-case hexadecimal digits. -/
def hexByte (b : UInt8) : String :=
  String.ofList [hexDigit (b.toNat / 16), hexDigit (b.toNat % 16)]

/-- The bytes in lower-case hexadecimal, two digits each. -/
def hex (bytes : List UInt8) : String :=
  String.join (bytes.map hexByte)

/-- A number in decimal with at least `width` digits. -/
def padded (width n : Nat) : String :=
  let digits := Nat.toDigits 10 n
  String.ofList (List.replicate (width - digits.length) '0' ++ digits)

end RelQuery.Text
