/-
Where something stands in a text: line, column and byte offset.

Lines and columns are counted from one, columns in characters. An
offset inside a character or past the end is located at the nearest
character boundary before it, and is kept as it was given.
-/
import RelQuery.Text.Blank

namespace RelQuery

/-- A point in a text. -/
structure Location where
  line : Nat
  column : Nat
  /-- Bytes from the start of the text. -/
  offset : Nat
  deriving DecidableEq, Repr, Inhabited

namespace Location

/-- The line of the point right after `before`. -/
def lineAfter (before : List Char) : Nat :=
  before.count '\n' + 1

/-- The column of the point right after `before`. -/
def columnAfter (before : List Char) : Nat :=
  (before.reverse.takeWhile (· != '\n')).length + 1

/-- Locates a byte offset of `source`. -/
def ofOffset (source : List Char) (offset : Nat) : Location :=
  let before := Text.takeBytes offset source
  ⟨lineAfter before, columnAfter before, offset⟩

/-- The written form, `line:column`. -/
def text (location : Location) : String :=
  toString location.line ++ ":" ++ toString location.column

end Location

/-- The text of a line counted from one, without its terminator;
empty when there is no such line. Line zero reads as line one. -/
def lineText (source : List Char) (line : Nat) : List Char :=
  (Text.lines source).getD (line - 1) []

end RelQuery
