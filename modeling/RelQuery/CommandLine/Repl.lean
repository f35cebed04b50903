/-
The interactive compiler.

One catalog and one set of options live for the whole dialogue. A line
that ends in a backslash continues on the next one; a line that starts
with a colon is a command; all else is compiled.
-/
import RelQuery.CommandLine.Output
import RelQuery.Session.Basic

namespace RelQuery.CommandLine

/-- The state of a dialogue. -/
structure Repl where
  options : Options
  catalog : Catalog := {}
  /-- What was given of an unfinished input. -/
  pending : List Char := []

namespace Repl

/-- The first lines of a dialogue. -/
def banner (color : Bool) : Output :=
  .concat [.line (paint color .boldCyan "relq interactive compiler"),
    .line ("Type " ++ paint color .green ":help" ++ " for help, " ++ paint color .green ":quit" ++
      " to quit"),
    .line ""]

/-- The last line of a dialogue. -/
def farewell : Output := .line "Goodbye!"

/-- What asks for the next line. -/
def prompt (r : Repl) : String :=
  if r.pending.isEmpty then "relq> " else "  ... "

/-- Compiles an input. Types are printed unless the trace shows them
anyway. -/
def submit (r : Repl) (color : Bool) (input : List Char) : Output × Repl :=
  let (_, s) := ({ options := r.options, catalog := r.catalog } : Session).process input
  let types := if s.options.trace.includes .types then []
    else s.output.map fun c => Output.line (paint color .green (": " ++ c.type.write))
  ({ err := String.join (s.events.map (·.print color)) } ++ .concat types,
    { r with options := s.options, catalog := s.catalog })

/-- The text of `:help`. -/
def help (color : Bool) : Output :=
  .concat [.line (paint color .bold "Commands"),
    .line "  :help, :h        show this help",
    .line "  :quit, :q        leave the REPL",
    .line "  :list, :ls       list catalog entries",
    .line "  :type, :t NAME   show the type of a catalog entry",
    .line "  :clear, :c       empty the catalog",
    .line "  :options         show compiler options",
    .line "",
    .line (paint color .bold "Directives"),
    .line "  #trace 0-3       echo, types, disassembly",
    .line "  #exec on|off     run statements through the evaluator",
    .line "  #catalog save    snapshot the catalog",
    .line "  #catalog load    restore the last snapshot"]

/-- The text of `:list`. -/
def listing (color : Bool) (catalog : Catalog) : Output :=
  if catalog.entries.isEmpty then .line "(catalog is empty)"
  else .concat (catalog.entries.map fun s => .line ("  " ++ paint color .dim s.kind.write ++ " " ++
    paint color .cyan s.name ++ " : " ++ s.type.write))

/-- The line of `:type` on one name. -/
def typeLine (color : Bool) (catalog : Catalog) (name : String) : Output :=
  match catalog.find? name with
  | some s => .line (paint color .cyan name ++ " : " ++ s.type.write)
  | none => .line (paint color .cyan name ++ " is not defined")

/-- The name of a trace level in `:options`. -/
def traceName : TraceLevel → String
  | .quiet => "Quiet"
  | .echo => "Echo"
  | .types => "Types"
  | .listing => "Disassembly"

/-- The text of `:options`. -/
def optionsLine (o : Options) : String :=
  "CompilerOptions \x7b trace: " ++ traceName o.trace ++
    s!", execute: {o.execute}, stop_on_error: {o.stopOnError}, color: {o.color} \x7d"

/-- Obeys a command; none when it ends the dialogue. -/
def obey (r : Repl) (color : Bool) (input : List Char) : Option (Output × Repl) :=
  match (Text.words input).map String.ofList with
  | [] => some ({}, r)
  | name :: rest =>
    if name == ":help" || name == ":h" then some (help color, r)
    else if name == ":quit" || name == ":q" || name == ":exit" then none
    else if name == ":list" || name == ":ls" then some (listing color r.catalog, r)
    else if name == ":type" || name == ":t" then
      if rest.isEmpty then some (.errorLine (failureLine color "Usage: :type <name>"), r)
      else some (.concat (rest.map (typeLine color r.catalog)), r)
    else if name == ":clear" || name == ":c" then
      some (.line (successLine color "catalog cleared"), { r with catalog := {} })
    else if name == ":options" then some (.line (optionsLine r.options), r)
    else
      some (.errorLine (failureLine color s!"Unknown command: {name}. Type :help for help"), r)

/-- Takes one line; none when it ends the dialogue. -/
def next (r : Repl) (color : Bool) (line : List Char) : Option (Output × Repl) :=
  match line.reverse with
  | '\\' :: front => some ({}, { r with pending := r.pending ++ front.reverse ++ ['\n'] })
  | _ =>
    let input := Text.trim (r.pending ++ line)
    let r := { r with pending := [] }
    if input.isEmpty then some ({}, r)
    else if input.head? == some ':' then r.obey color input
    else some (r.submit color input)

/-- The rest of a dialogue over the given lines. -/
def dialogue (color : Bool) (r : Repl) : List (List Char) → Output
  | [] => { out := r.prompt } ++ farewell
  | line :: rest =>
    match r.next color line with
    | none => { out := r.prompt } ++ farewell
    | some (shown, next) => { out := r.prompt } ++ shown ++ dialogue color next rest

/-- A whole dialogue. -/
def run (color : Bool) (options : Options) (input : List Char) : Output :=
  banner color ++ dialogue color { options } (Text.lines input)

end Repl

end RelQuery.CommandLine
