import StyleGrammar.CommandLine.Report

/-!
# The program

Reads the files that the arguments name, and writes the report.
-/

namespace StyleGrammar

/-- The text of a file, if it can be read. -/
def fileText? (path : String) : IO (Option String) := do
  try
    return some (← IO.FS.readFile path)
  catch _ => return none

end StyleGrammar

open StyleGrammar

def main (arguments : List String) : IO UInt32 := do
  let paths :=
    match Arguments.ofList arguments with
    | .ok a => a.files
    | .error _ => []
  let contents ← paths.mapM fun path => do return (path, ← fileText? path)
  let report := Report.ofCall (fun path => (contents.lookup path).join) arguments
  IO.print report.output
  IO.eprint report.errors
  return report.code.toUInt32
