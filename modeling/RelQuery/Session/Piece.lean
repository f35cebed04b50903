/-
Cutting a text into statements and directives.

A statement ends at a semicolon or at a newline, outside brackets,
strings and comments. A newline before a line that starts with a dot
does not end it, so that a chain can be written one step a line. Inside
brackets only a blank line ends a statement, which keeps an unclosed
bracket from swallowing the rest of the text. A `#` with nothing but
blanks and comments before it starts a directive, which takes the rest
of its line.
-/
import RelQuery.Text.Blank

namespace RelQuery

/-- A statement or a directive of a text. -/
inductive PieceBody where
  /-- A statement, without the blanks around it. -/
  | statement (text : List Char)
  /-- A directive, without its `#` and the blanks around it. -/
  | directive (text : List Char)
  deriving DecidableEq, Repr

/-- A piece of a text with the byte offset where it begins. -/
structure Piece where
  body : PieceBody
  offset : Nat
  deriving DecidableEq, Repr

/-- What the next character stands in. -/
inductive ScanMode where
  | code
  | string
  /-- A comment up to the end of its line. -/
  | comment
  /-- A directive up to the end of its line. -/
  | directive
  deriving DecidableEq, Repr

/-- How far a text has been scanned. -/
structure Scan where
  /-- The byte offset where the open stretch begins. -/
  start : Nat := 0
  /-- The characters of the open stretch, last one first. -/
  taken : List Char := []
  /-- Brackets open. -/
  depth : Nat := 0
  mode : ScanMode := .code
  deriving DecidableEq, Repr

namespace Text

/-- The characters of a line before a comment. -/
def beforeComment : List Char → List Char
  | '-' :: '-' :: _ => []
  | c :: rest => c :: beforeComment rest
  | [] => []

/-- Nothing but blanks and comments. -/
def onlyComments (text : List Char) : Bool :=
  (lines text).all fun line => allBlank (beforeComment line)

/-- The characters up to the end of the line. -/
def restOfLine (text : List Char) : List Char :=
  text.takeWhile (· != '\n')

/-- Whether a text begins with a blank line, with its newline. -/
def startsWithBlankLine (text : List Char) : Bool :=
  allBlank (restOfLine text) && text.contains '\n'

end Text

namespace Scan

/-- The byte offset of the next character. -/
def offset (s : Scan) : Nat :=
  s.start + Text.byteLength s.taken

/-- Takes one more character into the open stretch. -/
def take (s : Scan) (c : Char) : Scan :=
  { s with taken := c :: s.taken }

/-- The statement of the open stretch, if there is one. -/
def close (s : Scan) : List Piece :=
  let text := s.taken.reverse
  if Text.onlyComments text then []
  else
    let blanks := text.takeWhile Text.isBlank
    [⟨.statement (Text.trim text), s.start + Text.byteLength blanks⟩]

/-- Begins the next stretch after a character that ended the last. -/
def next (s : Scan) (c : Char) : Scan :=
  { s with start := s.offset + c.utf8Size, taken := [] }

/-- Whether a newline ends the statement, given what follows. -/
def endsAt (s : Scan) (rest : List Char) : Bool :=
  if s.depth = 0 then (Text.trimStart rest).head? != some '.' else Text.startsWithBlankLine rest

/-- What a newline does. -/
def newline (s : Scan) (rest : List Char) : List Piece × Scan :=
  let s := { s with mode := .code }
  if s.endsAt rest then (s.close, { s.next '\n' with depth := 0 }) else ([], s.take '\n')

/-- What a character of code does. -/
def code (s : Scan) (c : Char) (rest : List Char) : List Piece × Scan :=
  if c == '\'' then ([], { s.take c with mode := .string })
  else if c == '-' && rest.head? == some '-' then ([], { s.take c with mode := .comment })
  else if c == '#' && Text.onlyComments s.taken.reverse then
    ([⟨.directive (Text.trim (Text.restOfLine rest)), s.offset⟩], { s.next c with mode := .directive })
  else if c == '(' || c == '\x7b' || c == '[' then ([], { s.take c with depth := s.depth + 1 })
  else if c == ')' || c == '\x7d' || c == ']' then ([], { s.take c with depth := s.depth - 1 })
  else if c == ';' && s.depth = 0 then (s.close, s.next c)
  else ([], s.take c)

/-- Scans one character; `rest` is what follows it. -/
def step (s : Scan) (c : Char) (rest : List Char) : List Piece × Scan :=
  if c == '\n' then s.newline rest
  else
    match s.mode with
    | .code => s.code c rest
    | .string => ([], { s.take c with mode := if c == '\'' then .code else .string })
    | .comment => ([], s.take c)
    | .directive => ([], s.next c)

/-- The pieces of the rest of a text. -/
def pieces (s : Scan) : List Char → List Piece
  | [] => s.close
  | c :: rest =>
    let (found, s) := s.step c rest
    found ++ s.pieces rest

end Scan

/-- Cuts a text into its statements and directives. -/
def Piece.split (text : List Char) : List Piece :=
  ({} : Scan).pieces text

end RelQuery
