/-
Readers of text, and how they fail.

A reader takes characters from the front of its input. When it cannot,
it misses: an alternative may be tried from the same place. Once a
construct is recognised by its first token, a miss inside it is cut:
no alternative is tried any more, and the miss is reported where it
happened.

On its way out a miss collects what was wanted. The innermost label
and the innermost wanted token are the ones that stay.
-/
import RelQuery.Text.Blank

namespace RelQuery

/-- The rest of a text and the byte offset at which it begins. -/
structure Cursor where
  offset : Nat
  rest : List Char
  deriving DecidableEq, Repr, Inhabited

namespace Cursor

/-- Skips blanks and comments; `inside` tells that a comment has begun.
A comment runs from `--` to the end of the line. -/
def skipFrom (inside : Bool) (offset : Nat) : List Char → Cursor
  | [] => ⟨offset, []⟩
  | c :: rest =>
    if inside then skipFrom (c != '\n') (offset + c.utf8Size) rest
    else if Text.isBlank c then skipFrom false (offset + c.utf8Size) rest
    else
      match c, rest with
      | '-', '-' :: _ => skipFrom true (offset + 1) rest
      | _, _ => ⟨offset, c :: rest⟩

/-- The cursor at the next token. -/
def skip (c : Cursor) : Cursor :=
  skipFrom false c.offset c.rest

/-- The cursor after `n` further bytes, which leave `rest`. -/
def advance (c : Cursor) (n : Nat) (rest : List Char) : Cursor :=
  ⟨c.offset + n, rest⟩

end Cursor

/-- What a construct is called in errors. -/
inductive Label where
  | expression
  | number
  | closingQuote
  | time
  | closing
  | name
  | operator
  | type
  deriving DecidableEq, Repr

def Label.write : Label → String
  | .expression => "expression"
  | .number => "number"
  | .closingQuote => "closing quote"
  | .time => "time"
  | .closing => "closing delimiter"
  | .name => "name"
  | .operator => "infix operator"
  | .type => "type"

/-- A reader that failed. -/
structure Miss where
  /-- No alternative may be tried. -/
  cut : Bool
  /-- Where the reader failed. -/
  place : Cursor
  label : Option Label := none
  /-- The token that was wanted. -/
  wanted : Option String := none
  deriving Repr

/-- A reader of `α`. -/
abbrev Reading := StateT Cursor (Except Miss)

namespace Reading

/-- Fails at the current place. -/
def miss {α : Type} : Reading α := fun c => .error { cut := false, place := c }

/-- Fails at the current place under a label. -/
def missing {α : Type} (label : Label) : Reading α := fun c =>
  .error { cut := false, place := c, label := some label }

/-- Fails for good at a given place under a label. -/
def refuse {α : Type} (place : Cursor) (label : Label) : Reading α := fun _ =>
  .error { cut := true, place, label := some label }

/-- Changes the misses of a reader. -/
def onMiss {α : Type} (f : Miss → Miss) (r : Reading α) : Reading α := fun c =>
  match r c with
  | .ok x => .ok x
  | .error m => .error (f m)

/-- A miss of the reader is final and, if it has no label, gets one. -/
def required {α : Type} (label : Label) (r : Reading α) : Reading α :=
  onMiss (fun m => { m with cut := true, label := m.label <|> some label }) r

/-- A miss of the reader is final and tells the token it wanted. -/
def wanting {α : Type} (token : String) (r : Reading α) : Reading α :=
  onMiss (fun m => { m with cut := true, wanted := m.wanted <|> some token }) r

/-- The result of a reader; nothing is taken when it misses. A miss
that was cut goes on. -/
def optional {α : Type} (r : Reading α) : Reading (Option α) := fun c =>
  match r c with
  | .ok (a, c') => .ok (some a, c')
  | .error m => if m.cut then .error m else .ok (none, c)

/-- Whether a reader matched. -/
def found {α : Type} (r : Reading α) : Reading Bool := do
  return (← optional r).isSome

/-- Gives a reader the number of characters left, and one more, as
bound for a loop that takes at least one in every round. -/
def bounded {α : Type} (r : Nat → Reading α) : Reading α := fun c =>
  r (c.rest.length + 1) c

/-- Goes to the next token and gives its offset. -/
def mark : Reading Nat := fun c =>
  let c := c.skip
  .ok (c.offset, c)

/-- Goes to the next token and gives the text from there. -/
def ahead : Reading (List Char) := fun c =>
  let c := c.skip
  .ok (c.rest, c)

-- ============================================================ lists

/-- Further items after separators, at most the given number. An item
that misses leaves its separator unread. -/
def separatedRest {α : Type} (separator : Reading Unit) (item : Reading α) :
    Nat → Reading (List α)
  | 0 => return []
  | n + 1 => do
    match ← optional (do separator; item) with
    | none => return []
    | some a => return a :: (← separatedRest separator item n)

/-- One or more items between separators. -/
def separated1 {α : Type} (separator : Reading Unit) (item : Reading α) : Reading (List α) := do
  let first ← item
  return first :: (← bounded (separatedRest separator item))

/-- Any number of items between separators. -/
def separated {α : Type} (separator : Reading Unit) (item : Reading α) : Reading (List α) := do
  match ← optional item with
  | none => return []
  | some first => return first :: (← bounded (separatedRest separator item))

end Reading

end RelQuery
