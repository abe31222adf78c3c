import AbstractDomains.CommandLine.Observation

/-!
# The program

Reads the input file, prints the report and what was observed, and exits with the report's code.
-/

open AbstractDomains.CommandLine

/-- The content of the input file, if the command needs one and it can be read. -/
def readInput (command : Except UsageError Command) : IO (Option String) := do
  match command with
  | .ok (.evaluate options) =>
    if options.tracing then IO.FS.writeFile "tracing.folded" ""
    try return some (← IO.FS.readFile options.path)
    catch _ => return none
  | _ => return none

def main (args : List String) : IO UInt32 := do
  let command := Options.parse args
  let content ← readInput command
  let report := Report.ofCommand command content
  report.lines.forM IO.println
  (Observation.lines command content).forM IO.eprintln
  report.error.forM IO.eprintln
  return report.code.toUInt32
