/-
The arguments of the command line.

Options for all commands may stand before or after the command; the
later place wins. An option is given at most once in each place. Its
value follows it, after `=`, as the next argument, or for a one-letter
option right behind the letter. One-letter options may be joined, and
nothing after `--` is an option. Arguments are taken in order: the
first mistake, or the first request for help, decides.
-/
import RelQuery.Session.Options

namespace RelQuery.CommandLine

-- ========================================================== options

/-- The options of all commands together. -/
inductive Flag where
  | help
  | version
  | verbose
  | format
  | color
  | output
  | trace
  | stopOnError
  | strict
  deriving DecidableEq, Repr

namespace Flag

/-- The long name. -/
def long : Flag → String
  | .help => "help"
  | .version => "version"
  | .verbose => "verbose"
  | .format => "format"
  | .color => "color"
  | .output => "output"
  | .trace => "trace"
  | .stopOnError => "stop-on-error"
  | .strict => "strict"

/-- The letter, if there is one. -/
def short? : Flag → Option Char
  | .help => some 'h'
  | .version => some 'V'
  | .verbose => some 'v'
  | .format => some 'f'
  | .output => some 'o'
  | .trace => some 't'
  | .strict => some 's'
  | .color | .stopOnError => none

/-- Whether a value belongs to it. -/
def takesValue : Flag → Bool
  | .format | .color | .output | .trace => true
  | _ => false

/-- Whether it takes this value. -/
def allows : Flag → String → Bool
  | .format, value => value == "text" || value == "json"
  | .color, value => value == "auto" || value == "always" || value == "never"
  | .output, value => !value.isEmpty
  | .trace, value => (TraceLevel.read value).toOption.isSome
  | _, _ => true

end Flag

-- ========================================================== reading

/-- Why there is no command to run. -/
inductive Stop where
  /-- The arguments are wrong. -/
  | wrong
  /-- Help was asked for. -/
  | help
  /-- The version was asked for. -/
  | version
  deriving DecidableEq, Repr

/-- What was read in one place. -/
structure Given where
  options : List (Flag × String) := []
  words : List String := []
  deriving DecidableEq, Repr

namespace Given

/-- The value of an option, empty for one without. -/
def value? (g : Given) (flag : Flag) : Option String :=
  g.options.lookup flag

def has (g : Given) (flag : Flag) : Bool :=
  (g.value? flag).isSome

/-- Takes an option with its value. -/
def take (g : Given) (flag : Flag) (value : String) : Except Stop Given :=
  match flag with
  | .help => .error .help
  | .version => .error .version
  | flag =>
    if g.has flag || !flag.allows value then .error .wrong
    else .ok { g with options := (flag, value) :: g.options }

/-- Takes a word that is not an option; there are at most `limit`. -/
def word (g : Given) (limit : Option Nat) (w : String) : Except Stop Given :=
  if limit.any (· ≤ g.words.length) || w.isEmpty then .error .wrong
  else .ok { g with words := g.words ++ [w] }

end Given

/-- What one argument leads to. -/
inductive Taken where
  /-- All of it was taken. -/
  | done (g : Given)
  /-- The option still wants its value. -/
  | wants (flag : Flag) (g : Given)

/-- Takes a long option, from after its dashes. -/
def takeLong (flags : List Flag) (g : Given) (text : List Char) : Except Stop Taken :=
  let name := String.ofList (text.takeWhile (· != '='))
  let value := text.dropWhile (· != '=')
  match flags.find? (·.long == name) with
  | none => .error .wrong
  | some flag =>
    match value with
    | '=' :: value =>
      if flag.takesValue then return .done (← g.take flag (String.ofList value)) else .error .wrong
    | _ => if flag.takesValue then .ok (.wants flag g) else return .done (← g.take flag "")

/-- Takes joined one-letter options, from after the dash. -/
def takeShort (flags : List Flag) (g : Given) : List Char → Except Stop Taken
  | [] => .ok (.done g)
  | c :: rest =>
    match flags.find? (·.short? == some c) with
    | none => .error .wrong
    | some flag =>
      if flag.takesValue then
        match rest with
        | [] => .ok (.wants flag g)
        | '=' :: value => return .done (← g.take flag (String.ofList value))
        | value => return .done (← g.take flag (String.ofList value))
      else do takeShort flags (← g.take flag "") rest

/-- Whether an argument has the form of an option. -/
def looksLikeOption (text : List Char) : Bool :=
  match text with
  | '-' :: _ :: _ => true
  | _ => false

/-- Takes one argument that has the form of an option. -/
def takeOption (flags : List Flag) (g : Given) (text : List Char) : Except Stop Taken :=
  match text with
  | '-' :: '-' :: name => takeLong flags g name
  | _ => takeShort flags g text.tail

/-- Takes words to the end, options or not. -/
def takeWords (limit : Option Nat) (g : Given) : List String → Except Stop Given
  | [] => .ok g
  | w :: rest => do takeWords limit (← g.word limit w) rest

/-- Reads the arguments of a command. -/
def readArguments (flags : List Flag) (limit : Option Nat) (g : Given) :
    List String → Except Stop Given
  | [] => .ok g
  | arg :: rest =>
    if arg == "--" then takeWords limit g rest
    else if looksLikeOption arg.toList then do
      match ← takeOption flags g arg.toList with
      | .done g => readArguments flags limit g rest
      | .wants flag g =>
        match rest with
        | [] => .error .wrong
        | value :: rest =>
          if looksLikeOption value.toList then .error .wrong
          else do readArguments flags limit (← g.take flag value) rest
    else do readArguments flags limit (← g.word limit arg) rest

/-- Reads the arguments before the command; gives the command's name
and what follows it. -/
def readLeading (flags : List Flag) (g : Given) :
    List String → Except Stop (Given × String × List String)
  | [] => .error .wrong
  | arg :: rest =>
    if looksLikeOption arg.toList then do
      match ← takeOption flags g arg.toList with
      | .done g => readLeading flags g rest
      | .wants flag g =>
        match rest with
        | [] => .error .wrong
        | value :: rest =>
          if looksLikeOption value.toList then .error .wrong
          else do readLeading flags (← g.take flag value) rest
    else .ok (g, arg, rest)

-- ========================================================= commands

/-- How results are written. -/
inductive Format where
  | text
  | json
  deriving DecidableEq, Repr

/-- When output is coloured. -/
inductive ColorMode where
  /-- On a terminal. -/
  | auto
  | always
  | never
  deriving DecidableEq, Repr

/-- What to do. -/
inductive Command where
  | compile (file : String) (output : Option String) (trace : TraceLevel) (stopOnError : Bool)
  | check (files : List String) (strict : Bool)
  | disasm (file : String) (output : Option String)
  | repl (trace : TraceLevel)
  deriving DecidableEq, Repr

/-- A command with the options for all commands. -/
structure Invocation where
  verbose : Bool
  format : Format
  color : ColorMode
  command : Command
  deriving DecidableEq, Repr

namespace Invocation

/-- The options for all commands. -/
def general : List Flag := [.help, .verbose, .format, .color]

/-- A trace level that was checked when it was taken. -/
def traceOf (g : Given) (otherwise : TraceLevel) : TraceLevel :=
  match g.value? .trace with
  | some value => (TraceLevel.read value).toOption.getD otherwise
  | none => otherwise

/-- Reads the command from its name and what follows it. -/
def readCommand (name : String) (args : List String) : Except Stop (Command × Given) :=
  match name with
  | "compile" => do
    let g ← readArguments (general ++ [.output, .trace, .stopOnError]) (some 1) {} args
    match g.words with
    | [file] =>
      return (.compile file (g.value? .output) (traceOf g .quiet) (g.has .stopOnError), g)
    | _ => .error .wrong
  | "check" => do
    let g ← readArguments (general ++ [.strict]) none {} args
    return (.check g.words (g.has .strict), g)
  | "disasm" => do
    let g ← readArguments (general ++ [.output]) (some 1) {} args
    match g.words with
    | [file] => return (.disasm file (g.value? .output), g)
    | _ => .error .wrong
  | "repl" => do
    let g ← readArguments (general ++ [.trace]) (some 0) {} args
    return (.repl (traceOf g .types), g)
  | "help" =>
    match args with
    | [] => .error .help
    | [topic] =>
      if ["compile", "check", "disasm", "repl", "help"].contains topic then .error .help
      else .error .wrong
    | _ => .error .wrong
  | _ => .error .wrong

/-- Reads all arguments. -/
def read (args : List String) : Except Stop Invocation := do
  let (leading, name, rest) ← readLeading (general ++ [.version]) {} args
  let (command, own) ← readCommand name rest
  let value? (flag : Flag) : Option String := own.value? flag <|> leading.value? flag
  return { verbose := (value? .verbose).isSome
           format := if value? .format == some "json" then .json else .text
           color := match value? .color with
             | some "always" => .always
             | some "never" => .never
             | _ => .auto
           command }

end Invocation

end RelQuery.CommandLine
