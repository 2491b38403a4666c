import SourceLists.CommandLine.Run

/-! The program: reads its arguments and the script, prints, and writes the script. -/

namespace SourceLists.CommandLine

/-- The text of a script; there is none if the file is missing or is not UTF-8. -/
def readScript (path : String) : IO (Option Text) := do
  try
    let bytes ← IO.FS.readBinFile path
    return (String.fromUTF8? bytes).map String.toList
  catch _ => return none

/-- A terminal that is dumb or not known has no colours, nor has one for which they are turned
off. -/
def hasColour : IO Bool := do
  let terminal ← IO.getEnv "TERM"
  let off ← IO.getEnv "NO_COLOR"
  return off.isNone && terminal.any (· != "dumb")

def finish (path : String) (e : Ending) : IO UInt32 := do
  let stdout ← IO.getStdout
  let stderr ← IO.getStderr
  stdout.putStr e.output.shown
  stdout.flush
  stderr.putStr e.complaint.shown
  match e.replacement with
  | none => return e.exit.toUInt32
  | some text =>
    try
      IO.FS.writeFile path text.shown
      return e.exit.toUInt32
    catch _ =>
      stderr.putStrLn s!"Failed to write {path}"
      return 1

end SourceLists.CommandLine

open SourceLists.CommandLine

def main (arguments : List String) : IO UInt32 := do
  match SourceLists.Options.ofArguments (arguments.map String.toList) with
  | .error e => finish "" (.ofUsageError e)
  | .ok o => finish o.script.shown (call o (← hasColour) (← readScript o.script.shown))
