import CaretContext.Source.Symbol

/-!
# Log filters

A filter is a level, or a level for one target. The one in force comes from the environment if that
holds a valid filter, else from the settings, else it is the built-in one.
-/

namespace CaretContext

inductive LogLevel where
  | off
  | error
  | warn
  | info
  | debug
  | trace
deriving DecidableEq, Repr

namespace LogLevel

def all : List LogLevel := [off, error, warn, info, debug, trace]

def name : LogLevel → String
  | off => "off"
  | error => "error"
  | warn => "warn"
  | info => "info"
  | debug => "debug"
  | trace => "trace"

/-- The level with the number, which may have a plus sign and leading zeros. -/
def ofNumber? (text : String) : Option LogLevel :=
  let digits := match text.toList with
    | '+' :: rest => rest
    | cs => cs
  if digits.isEmpty || !digits.all Char.isDigit then none
  else all[digits.foldl (fun n d => 10 * n + (d.toNat - '0'.toNat)) 0]?

/-- The level with the name, in letters of any case, or with the number. -/
def ofText? (text : String) : Option LogLevel :=
  (all.find? fun level => level.name.toList = text.toList.map Char.toLower).or (ofNumber? text)

end LogLevel

/-- What is logged: everything from a level on, or only that of a target. -/
structure LogFilter where
  target : Option String
  level : LogLevel
deriving DecidableEq, Repr

namespace LogFilter

def isTargetStart (c : Char) : Bool := !isSymbol c || c = '_' || c = ':' || c = '-'

/-- Whether the text names a target. Lists of filters and parts of a target are not supported. -/
def isTarget (text : String) : Bool :=
  text.toList.head?.any isTargetStart && text.toList.all fun c => c != ',' && c != '['

/-- The filter written in the text. A target alone takes every level, and no text at all leaves
errors only. -/
def parse? (text : String) : Option LogFilter :=
  match (text.toList.splitOn '=').map String.ofList with
  | [""] => some ⟨none, .error⟩
  | [word] =>
    match LogLevel.ofText? word with
    | some level => some ⟨none, level⟩
    | none => if isTarget word then some ⟨some word, .trace⟩ else none
  | [target, level] =>
    if isTarget target then
      if level = "" then some ⟨some target, .trace⟩
      else (LogLevel.ofText? level).map fun level => ⟨some target, level⟩
    else none
  | _ => none

def text : LogFilter → String
  | ⟨none, level⟩ => level.name
  | ⟨some target, level⟩ => target ++ "=" ++ level.name

/-- The filter in force, given what the environment and the settings say. -/
def choose (environment : Option String) (setting : String) : LogFilter :=
  ((environment.bind parse?).or (parse? setting)).getD ⟨none, .warn⟩

end LogFilter

end CaretContext
