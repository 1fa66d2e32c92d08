import CaretContext.CommandLine

/-!
# The program

Reads what a run needs, prints its report and ends with its exit code.
-/

namespace CaretContext

def readState (path : String) : IO FileState := do
  try
    return .content (← IO.FS.readBinFile path)
  catch
    | .noFileOrDirectory .. => return .missing
    | .inappropriateType _ 20 _ => return .unreadable .notDirectory (by decide)
    | .inappropriateType .. => return .directory
    | e => return .unreadable (.other (toString e)) (by simp)

/-- Everything on a stream, after what has been read already. -/
partial def readAll (stream : IO.FS.Stream) (read : ByteArray) : IO ByteArray := do
  let bytes ← stream.read 65536
  if bytes.isEmpty then return read
  readAll stream (read ++ bytes)

/-- The directory of the user's configuration files, if there is one. -/
def configDirectory : IO (Option String) := do
  if let some directory ← IO.getEnv "XDG_CONFIG_HOME" then
    if directory.startsWith "/" then return some directory
  return (← IO.getEnv "HOME").map (· ++ "/.config")

def userSettings : IO SettingsFile := do
  match ← configDirectory with
  | some directory =>
    let path := directory ++ "/phpcursor/config.toml"
    return ⟨path, ← readState path⟩
  | none => return ⟨"config.toml", .missing⟩

end CaretContext

open CaretContext in
def main (arguments : List String) : IO UInt32 := do
  let files ← (CommandLine.paths arguments).mapM fun path => return (path, ← readState path)
  let input ← if CommandLine.readsInput arguments then readAll (← IO.getStdin) .empty else pure .empty
  let file (path : String) : FileState := (files.lookup path).getD .missing
  let report := CommandLine.run ⟨file, input, ← userSettings⟩ arguments
  IO.print report.output
  return report.exitCode.toUInt32
