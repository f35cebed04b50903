/-
The commands that work on files: compile, check and disasm.
-/
import RelQuery.CommandLine.Arguments
import RelQuery.CommandLine.Output
import RelQuery.Diagnostic.Exchange
import RelQuery.Session.Compilation

namespace RelQuery.CommandLine

/-- Diagnostics against the text they speak of, one after another. -/
def renderAll (color : Bool) (diagnostics : List Diagnostic) (source : List Char) : String :=
  String.intercalate "\n" (diagnostics.map (·.render source color))

/-- A number with blanks before it, at least `width` wide. -/
def padLeft (width n : Nat) : String :=
  let digits := toString n
  String.ofList (List.replicate (width - digits.length) ' ') ++ digits

/-- JSON on many lines with sorted names. -/
def writeJson (j : Json) : String :=
  j.sorted.pretty

-- ========================================================== compile

/-- One line on a compiled statement. -/
def describe (c : Compiled) : String :=
  let first := String.ofList ((Text.lines c.text).headD [])
  padLeft 5 c.offset ++ "  " ++ padLeft 4 c.code.length ++ " bytes  " ++ first ++ "  : " ++ c.type.write

/-- A compiled statement in a report. -/
def compiledJson (c : Compiled) : Json :=
  .object [("offset", .nat c.offset), ("source", .string (String.ofList c.text)),
    ("type", .string c.type.write), ("code", .string (Text.hex c.code))]

/-- The report on a compiled file. -/
def compileJson (c : Compilation) : Json :=
  .object [("success", .bool c.success), ("statements", .array (c.statements.map compiledJson)),
    ("diagnostics", .array (c.diagnostics.map Diagnostic.toJson))]

/-- The result of a compilation as text. -/
def compileText (color : Bool) (source : List Char) (c : Compilation) : Run Unit := do
  if !c.diagnostics.isEmpty then Run.printError (renderAll color c.diagnostics source)
  for s in c.statements do
    Run.print (describe s)

/-- Compiles a file; false when a statement failed. -/
def compileFile (host : Host) (color : Bool) (format : Format) (file : String)
    (output : Option String) (options : Options) : Run Bool := do
  let source ← Run.source host file
  let c := Compilation.ofText source options
  for line in c.lines do
    Run.printError line
  match format with
  | .text => compileText color source c
  | .json => Run.print (writeJson (compileJson c))
  match output with
  | none => pure ()
  | some path =>
    let bytes := (c.statements.map (·.code)).flatten
    Run.write host "Failed to write bytecode to" path bytes
    Run.printError (successLine color s!"{bytes.length} bytes written to {path}")
  return c.success

-- ============================================================ check

/-- A checked file. -/
structure Checked where
  file : String
  source : List Char
  result : Compilation

/-- Compiles the files one after another. -/
def checkAll (host : Host) (verbose : Bool) : List String → Run (List Checked)
  | [] => return []
  | file :: rest => do
    if verbose then Run.printError s!"Checking: {file}"
    let source ← Run.source host file
    let checked : Checked := ⟨file, source, Compilation.ofText source {}⟩
    return checked :: (← checkAll host verbose rest)

/-- The result of one file as text. -/
def printChecked (color : Bool) (c : Checked) : Run Unit := do
  let status := if c.result.success then paint color .boldGreen "✓" else paint color .boldRed "✗"
  Run.print (status ++ " " ++ paint color .cyan c.file ++ s!" ({c.result.statements.length} statement(s))")
  if !c.result.diagnostics.isEmpty then
    Run.print (renderAll color c.result.diagnostics c.source)

/-- The last line on all files. -/
def printSummary (color : Bool) (files errors warnings : Nat) : Run Unit :=
  if errors = 0 && warnings = 0 then Run.print (successLine color s!"{files} file(s) checked")
  else
    let parts := (if errors = 0 then [] else [paint color .red s!"{errors} error(s)"]) ++
      (if warnings = 0 then [] else [paint color .yellow s!"{warnings} warning(s)"])
    Run.printError (paint color .bold "Check found" ++ " " ++ String.intercalate ", " parts)

/-- A checked file in a report. -/
def checkedJson (c : Checked) : Json :=
  .object [("file", .string c.file), ("success", .bool c.result.success),
    ("statements", .nat c.result.statements.length),
    ("diagnostics", .array (c.result.diagnostics.map Diagnostic.toJson))]

/-- Checks files; false when one has errors, or warnings if they count
as such. -/
def checkFiles (host : Host) (color verbose strict : Bool) (format : Format) (files : List String) :
    Run Bool := do
  if files.isEmpty then throw "No files specified"
  let all ← checkAll host verbose files
  let errors := all.foldl (fun n c => n + c.result.errorCount) 0
  let warnings := all.foldl (fun n c => n + c.result.warningCount) 0
  match format with
  | .json => Run.print (writeJson (.array (all.map checkedJson)))
  | .text =>
    for c in all do
      printChecked color c
    Run.print ""
    printSummary color all.length errors warnings
  if strict && 0 < warnings then
    Run.printError (warningLine color "strict mode: treating warnings as errors")
    return false
  return errors == 0 && all.all (·.result.success)

-- =========================================================== disasm

/-- The line over the listing of a statement. -/
def listingHeader (c : Compiled) : String :=
  "-- " ++ String.ofList (c.text.map fun ch => if ch == '\n' then ' ' else ch) ++ " : " ++ c.type.write

/-- The listings of statements one after another. -/
def listingOf (color : Bool) : List Compiled → Run String
  | [] => return ""
  | c :: rest =>
    match Instruction.listCode c.code with
    | .error e => throw (s!"Failed to decode statement at offset {c.offset}: " ++ e.message)
    | .ok listing => do
      let more ← listingOf color rest
      return paint color .dim (listingHeader c) ++ "\n" ++ listing ++ more

/-- Lists the code of a file's statements. -/
def disasmFile (host : Host) (color : Bool) (file : String) (output : Option String) : Run Bool := do
  let source ← Run.source host file
  let c := Compilation.ofText source {}
  if !c.diagnostics.isEmpty then Run.printError (renderAll color c.diagnostics source)
  let listing := String.ofList (Text.trimEnd (← listingOf color c.statements).toList)
  match output with
  | none => Run.print listing
  | some path =>
    Run.write host "Failed to write output file:" path listing.toUTF8.data.toList
    Run.printError (successLine color s!"Output written to {path}")
  return c.success

end RelQuery.CommandLine
