import BlockText.CommandLine.Run

/-!
# The program

Reads what the command line asks for, runs it, and prints what it leaves.
-/

namespace BlockText.CommandLine

/-- All of a stream, after what was read before. -/
partial def readAll (stream : IO.FS.Stream) (before : String) : IO String := do
  let line ← stream.getLine
  if line.isEmpty then return before else readAll stream (before ++ line)

/-- A file's text, or why there is none. -/
def readFile (name : String) : IO (Except FileFault String) := do
  try
    return .ok (← IO.FS.readFile name)
  catch
    | .inappropriateType .. => return .error .directory
    | _ => return .error .missing

end BlockText.CommandLine

open BlockText in
/-- Runs the command line. -/
def main (arguments : List String) : IO UInt32 := do
  let names := CommandLine.wanted arguments
  let contents ← names.mapM fun name => do return (name, ← CommandLine.readFile name)
  let stdin ← if names.contains "-" then CommandLine.readAll (← IO.getStdin) "" else pure ""
  let file (name : String) : Except CommandLine.FileFault String :=
    ((contents.find? fun c => c.1 == name).map (·.2)).getD (.error .missing)
  let report := CommandLine.run arguments ⟨file, stdin⟩
  IO.print report.output
  IO.eprint report.errors
  return report.code.toUInt32
