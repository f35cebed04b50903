/-
What a session shows while it works.

An event has two written forms: the text that a host collects, and the
lines that go to a terminal.
-/
import RelQuery.Diagnostic.Basic
import RelQuery.Value.Basic

namespace RelQuery

/-- Something that a session shows. -/
inductive Event where
  /-- The text of the statement about to be compiled. -/
  | echo (text : List Char)
  /-- A diagnostic against a source text. -/
  | diagnostic (d : Diagnostic) (source : List Char)
  /-- The type of a result. -/
  | resultType (type : DataType)
  /-- The listing of a statement's code. -/
  | listing (text : String)
  /-- The value that running a statement gave. -/
  | value (v : Value)
  /-- A line on progress. -/
  | info (message : String)
  deriving Repr

namespace Event

/-- The text of an event. -/
def text (color : Bool) : Event → String
  | .echo source => "> " ++ String.ofList source
  | .diagnostic d source => d.render source color
  | .resultType type => ": " ++ type.write
  | .listing shown => String.ofList (Text.trimEnd shown.toList)
  | .value v => "= " ++ v.write
  | .info message => message

/-- The event as it goes to a terminal. Every line of an echoed text
gets its own mark. -/
def print (color : Bool) : Event → String
  | .echo source =>
    String.join ((Text.lines source).map fun line => "> " ++ String.ofList line ++ "\n")
  | e => e.text color ++ "\n"

/-- The diagnostic that an event shows. -/
def diagnostic? : Event → Option Diagnostic
  | .diagnostic d _ => some d
  | _ => none

end Event

end RelQuery
