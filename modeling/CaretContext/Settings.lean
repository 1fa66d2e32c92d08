import CaretContext.Toml.Document

/-!
# Settings

Two settings, read in layers: built-in values, the user's file, and a file named on the command
line. A file sets what it mentions and leaves the rest as it was.
-/

namespace CaretContext

/-- Why no text can be read from a path. -/
inductive ReadError where
  | notFound
  /-- The path goes on behind something that is no directory. -/
  | notDirectory
  | isDirectory
  | notText
  | other (reason : String)
deriving DecidableEq, Repr

def ReadError.message : ReadError → String
  | notFound => "No such file or directory (os error 2)"
  | notDirectory => "Not a directory (os error 20)"
  | isDirectory => "Is a directory (os error 21)"
  | notText => "stream did not contain valid UTF-8"
  | other reason => reason

/-- What stands at a path. -/
inductive FileState where
  | missing
  | directory
  /-- Something that cannot be read for another reason. -/
  | unreadable (cause : ReadError) (present : cause ≠ .notFound)
  | content (bytes : ByteArray)

def textOf (bytes : ByteArray) : Except ReadError String :=
  match String.fromUTF8? bytes with
  | some text => .ok text
  | none => .error .notText

def FileState.text : FileState → Except ReadError String
  | missing => .error .notFound
  | directory => .error .isDirectory
  | unreadable cause _ => .error cause
  | content bytes => textOf bytes

/-- The settings a run works with. -/
structure Settings where
  /-- The level from which on events are logged. -/
  level : String := "warn"
  /-- Whether comments between a receiver and a dynamic member are skipped. -/
  skipComments : Bool := false
deriving DecidableEq, Repr

/-- The settings a file mentions. -/
structure Overlay where
  level : Option String := none
  skipComments : Option Bool := none
deriving DecidableEq, Repr

def Settings.apply (settings : Settings) (overlay : Overlay) : Settings :=
  ⟨overlay.level.getD settings.level, overlay.skipComments.getD settings.skipComments⟩

namespace Overlay

open Toml

def string? : Value → Option String
  | .string text => some text
  | _ => none

def boolean? : Value → Option Bool
  | .boolean value => some value
  | _ => none

/-- The value of the only key of a section. A section is a table that has no other key, or an array
whose first item is the value. -/
def sectionValue {α : Type} (key : String) (read : Value → Option α) : Value → Option (Option α)
  | .table _ entries =>
    if entries.all (·.1 = key) then
      match entries.lookup key with
      | some value => (read value).map some
      | none => some none
    else none
  | .array (value :: _) => (read value).map some
  | .array [] => some none
  | _ => none

def optionalSection {α : Type} (entries : Entries) (name key : String) (read : Value → Option α) :
    Option (Option α) :=
  match entries.lookup name with
  | some value => sectionValue key read value
  | none => some none

/-- The overlay of a document, or nothing when it holds anything unknown. -/
def ofEntries? (entries : Entries) : Option Overlay := do
  if entries.all fun entry => entry.1 = "logging" || entry.1 = "scan" then
    return ⟨← optionalSection entries "logging" "level" string?,
      ← optionalSection entries "scan" "skip_comments" boolean?⟩
  else none

def parse? (text : String) : Option Overlay := (Toml.parse? text).bind ofEntries?

end Overlay

/-- Why settings could not be loaded. -/
inductive SettingsError where
  | unreadable (path : String) (cause : ReadError)
  | malformed (path : String)
deriving DecidableEq, Repr

def SettingsError.summary : SettingsError → String
  | unreadable path _ => "failed to read config file " ++ path
  | malformed path => "invalid config file " ++ path

/-- The summary and its reason. What is wrong with a malformed file is said by `complaint`, given the path of
the file. -/
def SettingsError.message (complaint : String → String) (e : SettingsError) : String :=
  match e with
  | unreadable _ cause => e.summary ++ ": " ++ cause.message
  | malformed path => e.summary ++ ": " ++ complaint path

/-- A file of settings. -/
structure SettingsFile where
  path : String
  state : FileState

namespace SettingsFile

/-- The overlay in a text that was read from the path. -/
def overlayOf (path text : String) : Except SettingsError Overlay :=
  match Overlay.parse? text with
  | some overlay => .ok overlay
  | none => .error (.malformed path)

def overlay (file : SettingsFile) : Except SettingsError Overlay :=
  match file.state.text with
  | .ok text => overlayOf file.path text
  | .error cause => .error (.unreadable file.path cause)

/-- The overlay in the file, which mentions nothing if it is missing. -/
def optionalOverlay (file : SettingsFile) : Except SettingsError Overlay :=
  match file.state with
  | .missing => .ok {}
  | _ => file.overlay

end SettingsFile

namespace Settings

/-- The settings from the user's file and, on top of it, an explicitly named one. -/
def load (user : SettingsFile) (explicit : Option SettingsFile) : Except SettingsError Settings := do
  let settings := Settings.apply {} (← user.optionalOverlay)
  match explicit with
  | some file => return settings.apply (← file.overlay)
  | none => return settings

def ofText (path text : String) : Except SettingsError Settings := do
  return Settings.apply {} (← SettingsFile.overlayOf path text)

end Settings

end CaretContext
