import CaretContext.Response

/-!
# The command line

Arguments are read from left to right. A run is a usage error, a request for help or the version, or
a command, which prints one response line. Everything a command reads is given to it, so that a run
is a function of its arguments and of what stands at the paths.
-/

namespace CaretContext

/-- A command and its options as far as they were given. -/
structure Command where
  mode : QueryMode
  settingsPath : Option String := none
  path : Option String := none
  readsInput : Bool := false
  offset : Option Nat := none
  asSelector : Bool := false
  countsChars : Bool := false
deriving DecidableEq, Repr

/-- What the arguments ask for. -/
inductive Request where
  | run (command : Command)
  | version
  | help
  | usageError
deriving DecidableEq, Repr

namespace CommandLine

def parseDigits? (bound : Nat) (digits : List Char) : Option Nat :=
  if digits.isEmpty || !digits.all Char.isDigit then none
  else
    let n := digits.foldl (fun n d => 10 * n + (d.toNat - '0'.toNat)) 0
    if n < bound then some n else none

/-- A decimal number of 32 bits. A sign and leading zeros are fine, though below zero there is
nothing. -/
def parseOffset? (text : String) : Option Nat :=
  match text.toList with
  | '+' :: digits => parseDigits? UInt32.size digits
  | '-' :: digits => parseDigits? 1 digits
  | digits => parseDigits? UInt32.size digits

def parsePath? (text : String) : Option String := if text = "" then none else some text

/-- Whether the argument is an option and not a value. A lone dash is a value. -/
def isOption (argument : String) : Bool :=
  match argument.toList with
  | '-' :: _ :: _ => true
  | _ => false

/-- An option and the value attached to it by an equals sign. -/
def splitOption (argument : String) : String × Option String :=
  let name := argument.toList.takeWhile (· != '=')
  match argument.toList.drop name.length with
  | _ :: value => (String.ofList name, some (String.ofList value))
  | [] => (argument, none)

/-- The value of an option: the attached one, or else the next argument, and the arguments left. -/
def optionValue (attached : Option String) (arguments : List String) :
    Option (String × List String) :=
  match attached, arguments with
  | some value, _ => some (value, arguments)
  | none, value :: rest => if isOption value then none else some (value, rest)
  | none, [] => none

/-- Gives an option its value. It may be given only once. -/
def setOnce {α : Type} (old : Option α) (new : Option α) : Option (Option α) :=
  match old, new with
  | none, some value => some (some value)
  | _, _ => none

/-- Sets a flag, which takes no value and may be given only once. -/
def setFlag (old : Bool) (attached : Option String) : Option Bool :=
  match old, attached with
  | false, none => some true
  | _, _ => none

/-- Whether the argument is a row of single letters that starts with the given one. -/
def startsWithLetter (letter : Char) (argument : String) : Bool :=
  ['-', letter].isPrefixOf argument.toList

def takesValue (name : String) : Bool :=
  name = "--config" || name = "--file" || name = "--source" || name = "--offset"

def withValue (command : Command) (name value : String) : Option Command :=
  match name with
  | "--config" => do
    return { command with settingsPath := ← setOnce command.settingsPath (parsePath? value) }
  | "--offset" => do
    return { command with offset := ← setOnce command.offset (parseOffset? value) }
  | _ => do return { command with path := ← setOnce command.path (parsePath? value) }

/-- The command with one more flag. Two of them belong to scope chains only. -/
def withFlag (command : Command) (name : String) (attached : Option String) : Option Command :=
  match name, command.mode with
  | "--stdin", _ => do return { command with readsInput := ← setFlag command.readsInput attached }
  | "--as-selector", .scopeChain => do
    return { command with asSelector := ← setFlag command.asSelector attached }
  | "--charoffset", .scopeChain => do
    return { command with countsChars := ← setFlag command.countsChars attached }
  | _, _ => none

/-- The arguments after the name of the command, at most `n` of them. -/
def parseOptions : Nat → Command → List String → Request
  | _, command, [] => .run command
  | 0, _, _ => .usageError
  | n + 1, command, argument :: rest =>
    if argument = "--" then if rest.isEmpty then .run command else .usageError
    else if argument = "--help" || startsWithLetter 'h' argument then .help
    else
      let (name, attached) := splitOption argument
      if takesValue name then
        match optionValue attached rest with
        | some (value, rest) =>
          match withValue command name value with
          | some command => parseOptions n command rest
          | none => .usageError
        | none => .usageError
      else
        match withFlag command name attached with
        | some command => parseOptions n command rest
        | none => .usageError

def mode? : String → Option QueryMode
  | "scope-chain" => some .scopeChain
  | "invocation" => some .invocation
  | _ => none

/-- The settings path that holds in the end: one given after the name of the command wins. -/
def Request.withDefaultSettings (path : Option String) : Request → Request
  | .run command => .run { command with settingsPath := command.settingsPath.or path }
  | request => request

/-- What help is asked for: all of it, or that of one command. -/
def parseHelp : List String → Request
  | [] => .help
  | [name] => if (mode? name).isSome || name = "help" then .help else .usageError
  | _ => .usageError

/-- All arguments, at most `n` of them before the name of the command. -/
def parseArguments : Nat → Option String → List String → Request
  | 0, _, _ => .usageError
  | _, _, [] => .usageError
  | n + 1, settingsPath, argument :: rest =>
    if argument = "--version" || startsWithLetter 'V' argument then .version
    else if argument = "--help" || startsWithLetter 'h' argument then .help
    else if argument = "help" then parseHelp rest
    else
      match mode? argument with
      | some mode =>
        Request.withDefaultSettings settingsPath (parseOptions rest.length { mode } rest)
      | none =>
        let (name, attached) := splitOption argument
        if name = "--config" then
          match optionValue attached rest with
          | some (value, rest) =>
            match setOnce settingsPath (parsePath? value) with
            | some settingsPath => parseArguments n settingsPath rest
            | none => .usageError
          | none => .usageError
        else .usageError

def parse (arguments : List String) : Request :=
  parseArguments (arguments.length + 1) none arguments

/-! ### Running -/

/-- What a run may read. -/
structure Surroundings where
  /-- What stands at a path. -/
  file : String → FileState
  input : ByteArray
  user : SettingsFile

/-- What a run prints, and the code it ends with. -/
structure Report where
  output : String
  exitCode : Nat
deriving DecidableEq, Repr

/-- The source of a command: standard input wins over a file. -/
def readSource (s : Surroundings) (command : Command) : Option (Except String Source) :=
  if command.readsInput then
    some <| match textOf s.input with
      | .ok text => .ok (Source.ofString text)
      | .error cause => .error ("Could not read stdin: " ++ cause.message)
  else command.path.map fun path =>
    match (s.file path).text with
    | .ok text => .ok (Source.ofString text)
    | .error cause => .error ("Could not read " ++ path ++ ": " ++ cause.message)

/-- The response of a command. Settings come first, so their failure hides any other. -/
def respond (complaint : String → String) (s : Surroundings) (command : Command) : Response :=
  let explicit := command.settingsPath.map fun path => (⟨path, s.file path⟩ : SettingsFile)
  match Settings.load s.user explicit with
  | .error e => .failure (e.message complaint)
  | .ok settings =>
    .ofOutcome <| Query.run settings.skipComments {
      mode := some command.mode
      source := readSource s command
      offset := command.offset
      asSelector := command.asSelector
      countsChars := command.countsChars }

/-- The report of a response: its line, and whether it was a success. -/
def Report.ofResponse (response : Response) : Report :=
  ⟨response.json ++ "\n", if response.success then 0 else 1⟩

def versionText : String := "phpcursor 0.1.0\n"

def helpText : String :=
  "Cursor-position queries over PHP source\n\n" ++
  "Usage: phpcursor [OPTIONS] <COMMAND>\n\n" ++
  "Commands:\n" ++
  "  scope-chain  List the constructs enclosing an offset, outermost first\n" ++
  "  invocation   Describe the innermost call enclosing an offset\n" ++
  "  help         Print this message or the help of the given subcommand(s)\n\n" ++
  "Options:\n" ++
  "      --config <CONFIG>  Configuration file layered over the user configuration\n" ++
  "  -h, --help             Print help\n" ++
  "  -V, --version          Print version\n"

/-- A whole run. The words for a malformed settings file are free. -/
def run (s : Surroundings) (arguments : List String)
    (complaint : String → String := fun _ => "not a valid settings document") : Report :=
  match parse arguments with
  | .run command => .ofResponse (respond complaint s command)
  | .version => ⟨versionText, 0⟩
  | .help => ⟨helpText, 0⟩
  | .usageError => ⟨"", 2⟩

def paths (arguments : List String) : List String :=
  match parse arguments with
  | .run command => command.settingsPath.toList ++ command.path.toList
  | _ => []

def readsInput (arguments : List String) : Bool :=
  match parse arguments with
  | .run command => command.readsInput
  | _ => false

end CommandLine

end CaretContext
