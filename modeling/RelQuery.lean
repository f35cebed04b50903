import RelQuery.Build.Basic
import RelQuery.Build.Call
import RelQuery.Build.Constructor
import RelQuery.Build.Fault
import RelQuery.Build.Field
import RelQuery.Build.Name
import RelQuery.Build.Statement
import RelQuery.Build.Walk
import RelQuery.Call.Builtin
import RelQuery.Call.Resolution
import RelQuery.Call.Signature
import RelQuery.Call.Symbol
import RelQuery.Catalog.Basic
import RelQuery.Code.Chunk
import RelQuery.Code.Decode
import RelQuery.Code.Encode
import RelQuery.Code.Instruction
import RelQuery.Code.Listing
import RelQuery.Code.Segment
import RelQuery.CommandLine.Arguments
import RelQuery.CommandLine.Basic
import RelQuery.CommandLine.Output
import RelQuery.CommandLine.Repl
import RelQuery.CommandLine.Report
import RelQuery.Context.Basic
import RelQuery.Context.Counter
import RelQuery.Context.Scope
import RelQuery.Diagnostic.Basic
import RelQuery.Diagnostic.Code
import RelQuery.Diagnostic.Exchange
import RelQuery.Diagnostic.Failure
import RelQuery.Grammar.Expression
import RelQuery.Grammar.Grouping
import RelQuery.Grammar.Reading
import RelQuery.Grammar.Sentence
import RelQuery.Grammar.Token
import RelQuery.Grammar.Tree
import RelQuery.Main
import RelQuery.Node.Basic
import RelQuery.Node.FieldList
import RelQuery.Node.Lowering
import RelQuery.Node.Statement
import RelQuery.Number.Decimal
import RelQuery.Number.Double
import RelQuery.Session.Basic
import RelQuery.Session.Compilation
import RelQuery.Session.Event
import RelQuery.Session.Options
import RelQuery.Session.Piece
import RelQuery.Text.Blank
import RelQuery.Text.Json
import RelQuery.Text.Location
import RelQuery.Time.Moment
import RelQuery.Type.Basic
import RelQuery.Type.Equality
import RelQuery.Type.Exchange
import RelQuery.Type.Heading
import RelQuery.Value.Basic
import RelQuery.Value.Exchange
import RelQuery.Proofs.Code.Reader
import RelQuery.Proofs.Code.Format
import RelQuery.Proofs.Type.Distinct
import RelQuery.Proofs.Value.Cut
import RelQuery.Proofs.Code.RoundTrip
import RelQuery.Proofs.Code.Stack
import RelQuery.Proofs.Node.Lowering
import RelQuery.Proofs.Context.Widening
import RelQuery.Proofs.Node.Slot
import RelQuery.Proofs.Node.FieldList
import RelQuery.Proofs.Build.Growth
import RelQuery.Proofs.Build.Step
import RelQuery.Proofs.Build.Field
import RelQuery.Proofs.Build.Walk
import RelQuery.Proofs.Build.Statement
import RelQuery.Proofs.Session.Balance
import RelQuery.Proofs.Session.Preparation
import RelQuery.Proofs.Session.Recovery
import RelQuery.Proofs.Session.Execution
import RelQuery.Proofs.Build.Descent
import RelQuery.Proofs.Session.Isolation
import RelQuery.Proofs.Build.Reading
import RelQuery.Proofs.Build.Lookup
import RelQuery.Proofs.Build.Header
import RelQuery.Proofs.Code.Canonical
import RelQuery.Proofs.Node.Own
import RelQuery.Proofs.Build.Copy
import RelQuery.Proofs.Build.Discipline
import RelQuery.Proofs.Build.Closing
import RelQuery.Proofs.Build.Window
import RelQuery.Proofs.Context.Recording
import RelQuery.Proofs.Node.Load
import RelQuery.Proofs.Build.Capture
import RelQuery.Proofs.Context.Veil
import RelQuery.Proofs.Build.Veil
import RelQuery.Proofs.Build.Chain
import RelQuery.Proofs.Code.Delimiting
import RelQuery.Proofs.Text.Comment
import RelQuery.Proofs.Session.Place
import RelQuery.Proofs.Session.Scanning
import RelQuery.Proofs.Session.Splitting
import RelQuery.Proofs.Grammar.Brackets
import RelQuery.Proofs.Session.Agreement
import RelQuery.Proofs.Number.Digits
import RelQuery.Proofs.Grammar.Writing
import RelQuery.Proofs.Grammar.Following
import RelQuery.Proofs.Grammar.Phrases
import RelQuery.Proofs.Grammar.Levels
import RelQuery.Proofs.Grammar.Primaries
import RelQuery.Proofs.Grammar.Selections
import RelQuery.Proofs.Grammar.Inversion
import RelQuery.Proofs.Code.Fault
import RelQuery.Proofs.Type.Definite
import RelQuery.Proofs.Node.Definite
import RelQuery.Proofs.Build.Definite
import RelQuery.Proofs.Session.Storage
import RelQuery.Proofs.Grammar.Marks
import RelQuery.Proofs.Build.Cause
import RelQuery.Proofs.Build.Written
import RelQuery.Proofs.Build.Blame
import RelQuery.Proofs.Session.Fault
import RelQuery.Proofs.Session.Filing
import RelQuery.Proofs.Type.Equality
import RelQuery.Proofs.Type.Inheritance
import RelQuery.Proofs.Build.Coherence
import RelQuery.Proofs.Call.Overloads
import RelQuery.Proofs.Session.Entries
import RelQuery.Proofs.Session.Meaning
import RelQuery.Proofs.Build.Locality
import RelQuery.Proofs.Grammar.Climbing
import RelQuery.Proofs.Node.Expansion
import RelQuery.Proofs.Build.Declared
import RelQuery.Proofs.Build.Blind
import RelQuery.Proofs.Build.Tracking
import RelQuery.Proofs.Build.Listing
import RelQuery.Proofs.Call.Stability
import RelQuery.Proofs.Type.Joining
import RelQuery.Proofs.Call.Merging
import RelQuery.Proofs.Node.Surroundings
import RelQuery.Proofs.Node.Heed
import RelQuery.Proofs.Build.Reflection
import RelQuery.Proofs.Build.Sight
import RelQuery.Proofs.Build.Placement
import RelQuery.Proofs.Type.Key
import RelQuery.Proofs.Type.Subtyping
import RelQuery.Proofs.Session.Stretch
import RelQuery.Proofs.Session.Tiling
import RelQuery.Proofs.Session.Resplitting
import RelQuery.Proofs.Diagnostic.Caret
import RelQuery.Proofs.Build.Reorder
import RelQuery.Proofs.Code.Extent
import RelQuery.Proofs.Build.Table
import RelQuery.Proofs.Code.Pointing
import RelQuery.Proofs.Build.Ordering
import RelQuery.Proofs.Grammar.Adjacent
import RelQuery.Proofs.Value.Display
import RelQuery.Proofs.Build.Trace
import RelQuery.Proofs.Build.Binding
import RelQuery.Proofs.Build.Resolution
import RelQuery.Proofs.Context.Levels
import RelQuery.Proofs.Session.Soundness
