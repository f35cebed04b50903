/-
Sessions: a catalog and options over a series of texts.

Each piece of a text is compiled on its own: read, built, checked,
turned into code, run if the options say so, and entered into the
catalog. A failure costs one piece; only a defect of the compiler
stops the rest of the text.

Running code is left to an evaluator, given as a function from the
number of the run and the code to its outcome.
-/
import RelQuery.Build.Walk
import RelQuery.Code.Listing
import RelQuery.Grammar.Sentence
import RelQuery.Node.Lowering
import RelQuery.Session.Event
import RelQuery.Session.Options
import RelQuery.Session.Piece

namespace RelQuery

/-- A fault raised by running code. -/
inductive RunError where
  | divisionByZero
  | unsupported (instruction : String)
  | failed (message : String)
  deriving DecidableEq, Repr

namespace RunError

def message : RunError → String
  | .divisionByZero => "division by zero"
  | .unsupported instruction => s!"unsupported instruction {instruction}"
  | .failed message => message

def code : RunError → Code
  | .divisionByZero => Code.divisionByZero
  | .unsupported _ => Code.unsupported
  | .failed _ => Code.evaluationFailed

def failure (e : RunError) : Failure :=
  .make .program e.code e.message

end RunError

/-- Gives the outcome of each run, counted from zero. -/
abbrev Evaluator := Nat → List UInt8 → Except RunError Value

/-- A compiled statement. -/
structure Compiled where
  text : List Char
  /-- Byte offset in the text it was part of. -/
  offset : Nat
  type : DataType
  code : List UInt8
  /-- What running it gave. -/
  value : Option Value
  deriving Repr

/-- The state of a session. -/
structure Session where
  options : Options := {}
  catalog : Catalog := {}
  evaluator : Option Evaluator := none
  context : Context := .fresh
  /-- How often the evaluator has run. -/
  runs : Nat := 0
  /-- Errors in the last text. -/
  errors : Nat := 0
  /-- Whether the last text was given up. -/
  aborted : Bool := false
  /-- Statements compiled from whole texts and not taken yet. -/
  output : List Compiled := []
  /-- Everything shown so far. -/
  events : List Event := []

/-- A step of a session; what it changed before a failure stays. -/
abbrev SessionStep := EStateM Failure Session

namespace SessionStep

/-- Shows an event. -/
def report (e : Event) : SessionStep Unit :=
  modify fun s => { s with events := s.events ++ [e] }

/-- Shows an event if the trace level asks for it. -/
def trace (level : TraceLevel) (e : Event) : SessionStep Unit := do
  if (← get).options.trace.includes level then report e

/-- Builds a statement in the session's context. -/
def build (sentence : Sentence) (locate : Nat → Location) : SessionStep Statement := fun s =>
  match Build.statement s.catalog sentence { context := s.context } with
  | .ok statement w => .ok statement { s with context := w.context }
  | .error f w => .error (f.failure locate) { s with context := w.context }

/-- Runs code, if there is an evaluator. -/
def run (code : List UInt8) : SessionStep (Option Value) := do
  let s ← get
  match s.evaluator with
  | none => return none
  | some evaluator =>
    set { s with runs := s.runs + 1 }
    match evaluator s.runs code with
    | .error e => throw e.failure
    | .ok value =>
      report (.value value)
      return some value

/-- A refusal of the catalog as a failure. -/
def refusal (e : CatalogError) : Failure :=
  .make (if e.isSystem then .system else .semantic) e.code e.message

/-- Enters what a statement defines into the catalog. -/
def register (statement : Statement) (start : Location) : SessionStep Unit := do
  match (← get).catalog.register statement with
  | .ok catalog => modify fun s => { s with catalog }
  | .error e => throw ((refusal e).orAt start)

/-- Turns a statement into code, after a look at its types. -/
def emit (statement : Statement) (start : Location) : Except Failure (List UInt8) :=
  match statement.loose? with
  | some l => .error ((Failure.make .internal l.code l.message).orAt start)
  | none => statement.emit.mapError fun e => .make .internal e.code e.message

/-- Compiles a statement that stands at `offset` in `source`. -/
def statement (text : List Char) (offset : Nat) (source : List Char) : SessionStep Compiled := do
  let locate (mark : Nat) : Location := .ofOffset source (offset + mark)
  trace .echo (.echo text)
  let sentence ← match Sentence.read text with
    | .ok sentence => pure sentence
    | .error e => throw (.single .parse e.code e.message (some (locate e.offset)))
  let statement ← build sentence locate
  let context := (← get).context
  if context.depth ≠ 0 || !context.inSync then
    throw (.make .internal Code.stackUnderflow "scope left open after statement")
  let code ← match emit statement (locate 0) with
    | .ok code => pure code
    | .error f => throw f
  trace .types (.resultType statement.dataType)
  match Instruction.listCode code with
  | .ok listing => trace .listing (.listing listing)
  | .error _ => pure ()
  let value ← if (← get).options.execute then run code else pure none
  register statement (locate 0)
  return { text, offset, type := statement.dataType, code, value }

-- ======================================================= directives

/-- Changes the options. -/
def setOptions (f : Options → Options) : SessionStep Unit :=
  modify fun s => { s with options := f s.options }

/-- Turns execution on or off. -/
def setExecution (on : Bool) : SessionStep Unit := do
  setOptions fun o => { o with execute := on }
  if on && (← get).evaluator.isNone then
    report (.diagnostic (.warning Code.badConfiguration "execution enabled without an evaluator") [])

/-- Obeys a directive. -/
def directive (text : List Char) : SessionStep Unit := do
  match (Text.words text).map String.ofList with
  | ["trace", level] =>
    match TraceLevel.read level with
    | .ok trace => setOptions fun o => { o with trace }
    | .error e => throw (.make .system Code.badConfiguration e.message)
  | ["catalog", "load"] =>
    match (← get).catalog.load with
    | .ok (count, catalog) =>
      modify fun s => { s with catalog }
      report (.info s!"catalog loaded: {count} entries")
    | .error e => throw (refusal e)
  | ["catalog", "save"] =>
    let (count, catalog) := (← get).catalog.save
    modify fun s => { s with catalog }
    report (.info s!"catalog saved: {count} entries")
  | ["exec", "on"] => setExecution true
  | ["exec", "off"] => setExecution false
  | _ => throw (.make .parse Code.unknownDirective ("unknown directive '#" ++ String.ofList text ++ "'"))

/-- Deals with one piece of a text. -/
def piece (source : List Char) (p : Piece) : SessionStep Unit :=
  match p.body with
  | .statement text => do
    let compiled ← statement text p.offset source
    modify fun s => { s with output := s.output ++ [compiled] }
  | .directive text => fun s =>
    match directive text s with
    | .ok a s => .ok a s
    | .error f s => .error (f.orAt (.ofOffset source p.offset)) s

end SessionStep

namespace Session

/-- Deals with a failure: it is shown, the context is cleared, and it
is counted or ends the text. -/
def recover (s : Session) (f : Failure) (source : List Char) : Session :=
  let shown := { s with events := s.events ++ [Event.diagnostic f.diagnostic source], context := .fresh }
  if f.isRestartable then { shown with errors := shown.errors + 1 }
  else { shown with aborted := true, events := shown.events ++ [Event.info "aborted"] }

/-- Deals with pieces one after another, until one ends the text. -/
def pieces (source : List Char) : List Piece → Session → Session
  | [], s => s
  | p :: rest, s =>
    match SessionStep.piece source p s with
    | .ok _ s => pieces source rest s
    | .error f s =>
      let s := s.recover f source
      if s.aborted || s.options.stopOnError then s else pieces source rest s

/-- Compiles a text and tells whether all of it succeeded. What did
succeed is kept in any case. -/
def process (s : Session) (text : List Char) : Bool × Session :=
  let s := pieces text (Piece.split text) { s with errors := 0, aborted := false }
  (s.errors == 0 && !s.aborted, s)

/-- Compiles one statement that stands at `offset` in `source`. -/
def compileStatement (s : Session) (text : List Char) (offset : Nat) (source : List Char) :
    Except Failure Compiled × Session :=
  match SessionStep.statement text offset source s with
  | .ok compiled s => (.ok compiled, s)
  | .error f s => (.error f, s)

/-- Takes the compiled statements out of the session. -/
def takeOutput (s : Session) : List Compiled × Session :=
  (s.output, { s with output := [] })

/-- The diagnostics shown so far. -/
def diagnostics (s : Session) : List Diagnostic :=
  s.events.filterMap Event.diagnostic?

end Session

end RelQuery
