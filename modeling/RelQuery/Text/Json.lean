/-
JSON: values, writing and reading.

The members of an object are a list, so that their order and repeated
names are kept for whoever interprets them. Integers of 64 bits are
kept as they are; every other number keeps a significand of 64 bits and
an exponent of ten. Reading is strict: no comments, no trailing commas
and no control characters inside strings. What is well-formed and
cannot be kept, such as half of a surrogate pair, stands as unread:
whoever needs it fails, and whoever passes over it does not.
-/
import RelQuery.Text.Blank

namespace RelQuery

/-- A JSON value. -/
inductive Json where
  | null
  | bool (b : Bool)
  | int (n : Int)
  /-- The number `digits * 10 ^ exponent`, with its sign. -/
  | real (negative : Bool) (digits : Nat) (exponent : Int)
  | string (s : String)
  | array (items : List Json)
  | object (members : List (String × Json))
  /-- A well-formed value that was passed over. -/
  | unread
  deriving Repr, Inhabited

namespace Json

/-- A natural number. -/
def nat (n : Nat) : Json :=
  .int n

/-- A value that may be absent. -/
def optional {α : Type} (write : α → Json) : Option α → Json
  | some a => write a
  | none => .null

-- ========================================================== writing

/-- A character inside a string. -/
def escape (c : Char) : List Char :=
  match c with
  | '"' => ['\\', '"']
  | '\\' => ['\\', '\\']
  | '\n' => ['\\', 'n']
  | '\r' => ['\\', 'r']
  | '\t' => ['\\', 't']
  | c =>
    let n := c.toNat
    if n == 8 then ['\\', 'b']
    else if n == 12 then ['\\', 'f']
    else if n < 32 then ['\\', 'u', '0', '0', Text.hexDigit (n / 16), Text.hexDigit (n % 16)]
    else [c]

/-- A string in quotes. -/
def quoted (s : String) : String :=
  String.ofList ('"' :: (s.toList.flatMap escape ++ ['"']))

/-- A number with its exponent. -/
def writeReal (negative : Bool) (digits : Nat) (exponent : Int) : String :=
  (if negative then "-" else "") ++ toString digits ++ "e" ++ toString exponent

mutual

/-- The written form without blanks. -/
def compact : Json → String
  | .null => "null"
  | .bool b => if b then "true" else "false"
  | .int n => toString n
  | .real negative digits exponent => writeReal negative digits exponent
  | .string s => quoted s
  | .array items => "[" ++ String.intercalate "," (compactItems items) ++ "]"
  | .object members => "\x7b" ++ String.intercalate "," (compactMembers members) ++ "\x7d"
  | .unread => "null"

def compactItems : List Json → List String
  | [] => []
  | j :: rest => j.compact :: compactItems rest

def compactMembers : List (String × Json) → List String
  | [] => []
  | (name, j) :: rest => (quoted name ++ ":" ++ j.compact) :: compactMembers rest

end

/-- A line break and two blanks for each level. -/
def newline (depth : Nat) : String :=
  "\n" ++ String.ofList (List.replicate (2 * depth) ' ')

/-- Items on lines of their own between two brackets. -/
def spread (opening closing : String) (depth : Nat) (items : List String) : String :=
  if items.isEmpty then opening ++ closing
  else opening ++ newline (depth + 1) ++ String.intercalate ("," ++ newline (depth + 1)) items ++
    newline depth ++ closing

mutual

/-- The written form on many lines, from a nesting level on. -/
def prettyAt (depth : Nat) : Json → String
  | .null => "null"
  | .bool b => if b then "true" else "false"
  | .int n => toString n
  | .real negative digits exponent => writeReal negative digits exponent
  | .string s => quoted s
  | .array items => spread "[" "]" depth (prettyItems (depth + 1) items)
  | .object members => spread "\x7b" "\x7d" depth (prettyMembers (depth + 1) members)
  | .unread => "null"

def prettyItems (depth : Nat) : List Json → List String
  | [] => []
  | j :: rest => prettyAt depth j :: prettyItems depth rest

def prettyMembers (depth : Nat) : List (String × Json) → List String
  | [] => []
  | (name, j) :: rest => (quoted name ++ ": " ++ prettyAt depth j) :: prettyMembers depth rest

end

/-- The written form on many lines, two blanks a level. -/
def pretty (j : Json) : String :=
  prettyAt 0 j

mutual

/-- The value with the members of every object in the order of their
names. -/
def sorted : Json → Json
  | .array items => .array (sortedItems items)
  | .object members =>
    .object ((sortedMembers members).mergeSort fun a b => decide (a.1 ≤ b.1))
  | j => j

def sortedItems : List Json → List Json
  | [] => []
  | j :: rest => j.sorted :: sortedItems rest

def sortedMembers : List (String × Json) → List (String × Json)
  | [] => []
  | (name, j) :: rest => (name, j.sorted) :: sortedMembers rest

end

-- ========================================================== reading

/-- Reads every item, or fails with the first that does not read. -/
def each? {α β : Type} (read : α → Option β) : List α → Option (List β)
  | [] => some []
  | a :: rest => do return (← read a) :: (← each? read rest)

/-- A reader takes from the front of a text; none when it cannot. -/
abbrev Reader (α : Type) := StateT (List Char) Option α

namespace Reader

/-- Skips blanks, tabs and line breaks. -/
def skip : Reader Unit :=
  modify fun text => text.dropWhile fun c => c == ' ' || c == '\t' || c == '\n' || c == '\r'

/-- The next character. -/
def next : Reader Char := fun
  | c :: rest => some (c, rest)
  | [] => none

/-- The next character, left in place. -/
def peek : Reader (Option Char) := do
  return (← get).head?

/-- A fixed character. -/
def mark (c : Char) : Reader Unit := do
  if (← next) == c then return () else failure

/-- A fixed word. -/
def word (w : String) : Reader Unit := fun text =>
  (Text.after? w.toList text).map ((), ·)

/-- Leading digits. -/
def digits : Reader (List Char) := fun text =>
  some (text.takeWhile Char.isDigit, text.dropWhile Char.isDigit)

/-- At least one digit. -/
def digits1 : Reader (List Char) := do
  let ds ← digits
  if ds.isEmpty then failure else return ds

/-- The value of a hexadecimal digit. -/
def hexValue? (c : Char) : Option Nat :=
  if c.isDigit then some (c.toNat - 48)
  else if 'a' ≤ c && c ≤ 'f' then some (c.toNat - 87)
  else if 'A' ≤ c && c ≤ 'F' then some (c.toNat - 55)
  else none

/-- Four hexadecimal digits. -/
def hex4 : Reader Nat := do
  let a ← hexValue? (← next)
  let b ← hexValue? (← next)
  let c ← hexValue? (← next)
  let d ← hexValue? (← next)
  return ((a * 16 + b) * 16 + c) * 16 + d

/-- The second half of a surrogate pair. -/
def lowHalf : Reader Nat := do
  mark '\\'
  mark 'u'
  let n ← hex4
  if 0xdc00 ≤ n && n < 0xe000 then return n else failure

/-- What follows `\u`: a code unit, or a surrogate pair; none for half
of a pair. -/
def unicode : Reader (Option Char) := do
  let n ← hex4
  if 0xd800 ≤ n && n < 0xdc00 then
    let low ← (some <$> lowHalf) <|> pure none
    return low.map fun m => Char.ofNat (0x10000 + (n - 0xd800) * 0x400 + (m - 0xdc00))
  else if 0xdc00 ≤ n && n < 0xe000 then return none
  else return some (Char.ofNat n)

/-- What follows a backslash; none for half of a surrogate pair. -/
def escaped : Reader (Option Char) := do
  match ← next with
  | '"' => return '"'
  | '\\' => return '\\'
  | '/' => return '/'
  | 'b' => return Char.ofNat 8
  | 'f' => return Char.ofNat 12
  | 'n' => return '\n'
  | 'r' => return '\r'
  | 't' => return '\t'
  | 'u' => unicode
  | _ => failure

/-- The rest of a string up to its quote; `fuel` bounds the number of
characters. What was seen is none from the first half of a surrogate
pair on. -/
def stringRest : Nat → Option (List Char) → Reader (Option String)
  | 0, _ => failure
  | fuel + 1, seen => do
    match ← next with
    | '"' => return seen.map fun cs => String.ofList cs.reverse
    | '\\' => do
      let c ← escaped
      stringRest fuel (c.bind fun c => seen.map (c :: ·))
    | c => if c.toNat < 32 then failure else stringRest fuel (seen.map (c :: ·))

/-- A string, its opening quote included; none when half of a surrogate
pair is in it. -/
def string : Reader (Option String) := do
  mark '"'
  stringRest ((← get).length + 1) (some [])

/-- Digits before the point: no leading zero. -/
def whole : Reader (List Char) := do
  let ds ← digits1
  match ds with
  | '0' :: _ :: _ => failure
  | _ => return ds

/-- A point and digits, or nothing. -/
def fraction : Reader (Option (List Char)) := do
  if (← peek) == some '.' then
    mark '.'
    return some (← digits1)
  else return none

/-- The value of decimal digits. -/
def valueOf (ds : List Char) : Nat :=
  ds.foldl (fun n c => n * 10 + (c.toNat - 48)) 0

/-- An exponent, or nothing. -/
def exponent : Reader (Option Int) := do
  match ← peek with
  | some 'e' | some 'E' => do
    let _ ← next
    match ← peek with
    | some '-' => do
      mark '-'
      return some (-(valueOf (← digits1) : Int))
    | some '+' => do
      mark '+'
      return some (valueOf (← digits1) : Int)
    | _ => return some (valueOf (← digits1) : Int)
  | _ => return none

/-- Appends digits to a number as long as it stays in 64 bits; gives
the number and the digits left over. -/
def extend (n : Nat) : List Char → Nat × List Char
  | [] => (n, [])
  | c :: rest =>
    let next := n * 10 + (c.toNat - 48)
    if next < 0x10000000000000000 then extend next rest else (n, c :: rest)

/-- The significand and the exponent of digits before and after the
point. Digits before it that do not fit raise the exponent, and those
after it are then tried again. -/
def significand (ds fs : List Char) : Nat × Int :=
  let (n, dropped) := extend 0 ds
  let (n, left) := extend n fs
  (n, (dropped.length : Int) - (fs.length - left.length : Nat))

/-- The number of digits before and after the point and an exponent.
Minus zero is not an integer. -/
def numberOf (negative : Bool) (ds : List Char) (fs : Option (List Char)) (e : Option Int) : Json :=
  let n : Int := if negative then -(valueOf ds : Int) else valueOf ds
  if fs.isNone && e.isNone && -0x8000000000000000 ≤ n && n < 0x10000000000000000 &&
      !(negative && n == 0) then .int n
  else
    let (digits, exponent) := significand ds (fs.getD [])
    .real negative digits (exponent + e.getD 0)

/-- A number. -/
def number : Reader Json := do
  let negative ← do
    if (← peek) == some '-' then
      mark '-'
      pure true
    else pure false
  return numberOf negative (← whole) (← fraction) (← exponent)

/-- A value without brackets. -/
def scalar : Reader Json := do
  match ← peek with
  | some 'n' => do word "null"; return .null
  | some 't' => do word "true"; return .bool true
  | some 'f' => do word "false"; return .bool false
  | some '"' => return (← string).elim .unread .string
  | _ => number

/-- Items after the first, up to `]`; `fuel` bounds their number. -/
def itemsRest (item : Reader Json) : Nat → List Json → Reader (List Json)
  | 0, _ => failure
  | fuel + 1, seen => do
    skip
    match ← next with
    | ']' => return seen.reverse
    | ',' => do itemsRest item fuel ((← item) :: seen)
    | _ => failure

/-- The items of an array, after `[`. -/
def items (item : Reader Json) : Reader (List Json) := do
  skip
  if (← peek) == some ']' then
    mark ']'
    return []
  else
    let first ← item
    itemsRest item ((← get).length + 1) [first]

/-- The name of a member and its colon. -/
def name : Reader (Option String) := do
  skip
  let name ← string
  skip
  mark ':'
  return name

/-- A member: name, colon, value. -/
def member (item : Reader Json) : Reader (Option String × Json) := do
  return (← name, ← item)

/-- Members after the first, up to `}`; `fuel` bounds their number. -/
def membersRest (item : Reader Json) :
    Nat → List (Option String × Json) → Reader (List (Option String × Json))
  | 0, _ => failure
  | fuel + 1, seen => do
    skip
    match ← next with
    | '}' => return seen.reverse
    | ',' => do membersRest item fuel ((← member item) :: seen)
    | _ => failure

/-- The members of an object, after `{`. -/
def members (item : Reader Json) : Reader (List (Option String × Json)) := do
  skip
  if (← peek) == some '}' then
    mark '}'
    return []
  else
    let first ← member item
    membersRest item ((← get).length + 1) [first]

/-- The object of the members, unless one of their names is unread. -/
def objectOf (members : List (Option String × Json)) : Json :=
  match each? (fun (name, j) => name.map (·, j)) members with
  | some members => .object members
  | none => .unread

/-- A bracket that is open. -/
inductive Bracket where
  | square
  | curly

/-- Passes over a value and the rest of the open brackets around it,
the innermost first. `due` tells that an item comes next; otherwise
one has just ended. `fuel` bounds the number of steps, each of which
takes a character. -/
def pass : Nat → Bool → List Bracket → Reader Unit
  | 0, _, _ => failure
  | fuel + 1, true, around => do
    skip
    match ← peek with
    | some '[' => do
      mark '['
      skip
      if (← peek) == some ']' then
        mark ']'
        pass fuel false around
      else pass fuel true (.square :: around)
    | some '{' => do
      mark '{'
      skip
      if (← peek) == some '}' then
        mark '}'
        pass fuel false around
      else
        let _ ← name
        pass fuel true (.curly :: around)
    | _ => do
      let _ ← scalar
      pass fuel false around
  | _ + 1, false, [] => return ()
  | fuel + 1, false, .square :: around => do
    skip
    match ← next with
    | ']' => pass fuel false around
    | ',' => pass fuel true (.square :: around)
    | _ => failure
  | fuel + 1, false, .curly :: around => do
    skip
    match ← next with
    | '}' => pass fuel false around
    | ',' => do
      let _ ← name
      pass fuel true (.curly :: around)
    | _ => failure

/-- A value that is passed over. -/
def passed : Reader Json := do
  pass ((← get).length + 1) true []
  return .unread

/-- A value of which the given number of nested brackets are read, and
deeper ones passed over. -/
def value : Nat → Reader Json
  | 0 => do
    skip
    match ← peek with
    | some '[' | some '{' => passed
    | _ => scalar
  | depth + 1 => do
    skip
    match ← peek with
    | some '[' => do
      mark '['
      return .array (← items (value depth))
    | some '{' => do
      mark '{'
      return objectOf (← members (value depth))
    | _ => scalar

end Reader

/-- Reads a text that is one JSON value. -/
def read? (text : List Char) : Option Json :=
  match (do let j ← Reader.value 127; Reader.skip; return j : Reader Json).run text with
  | some (j, []) => some j
  | _ => none

-- ==================================================== taking apart

/-- The fields of a record, in the order of their names. A record is
an object, whose other members are passed over and whose fields may be
missing but not repeated, or an array of all fields in order. -/
def record? (names : List String) : Json → Option (List (Option Json))
  | .object members =>
    if names.all fun n => (members.filter (·.1 == n)).length ≤ 1 then
      some (names.map fun n => (members.find? (·.1 == n)).map (·.2))
    else none
  | .array items => if items.length == names.length then some (items.map some) else none
  | _ => none

/-- A case of a choice with its content: a bare name, or an object with
the name as its only member. -/
def choice? : Json → Option (String × Option Json)
  | .string s => some (s, none)
  | .object [(name, j)] => some (name, some j)
  | _ => none

/-- The content of a case without any: nothing, or null. -/
def isUnit : Option Json → Bool
  | none => true
  | some .null => true
  | some _ => false

def string? : Json → Option String
  | .string s => some s
  | _ => none

def bool? : Json → Option Bool
  | .bool b => some b
  | _ => none

/-- A natural number below `bound`. -/
def natBelow? (bound : Nat) : Json → Option Nat
  | .int n => if 0 ≤ n && n.toNat < bound then some n.toNat else none
  | _ => none

def array? : Json → Option (List Json)
  | .array items => some items
  | _ => none

/-- A value that may be null or missing. -/
def nullable? {α : Type} (read : Json → Option α) : Option Json → Option (Option α)
  | none => some none
  | some .null => some none
  | some j => (read j).map some

end Json

end RelQuery
