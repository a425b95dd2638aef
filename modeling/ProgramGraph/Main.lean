import ProgramGraph.CommandLine.Report
/-!
# The command line

Reads the file that the arguments name, and prints the report of the call.
-/

open ProgramGraph CommandLine

/-- The text of a file, if it can be read. -/
def textOfFile (file : String) : IO (Option String) := do
  try
    let bytes ← IO.FS.readBinFile file
    return String.fromUTF8? bytes
  catch _ => return none

/-- What help is given. -/
def usage : String :=
  "Usage: run --file FILE [--max-steps N] [--reference]\n" ++
  "       validate --file FILE\n"

/-- Prints a report, and gives the exit status. -/
def printReport (report : Report) : IO UInt32 := do
  for tag in report.warnings do
    IO.eprintln ("no built-in handler for " ++ tag ++ "; evaluation fails if it is reached")
  IO.print report.output
  if let some failure := report.failure then
    IO.eprintln ("Error: " ++ failure.message)
  return UInt32.ofNat report.status

/-- Performs the call that the arguments make. -/
def main (arguments : List String) : IO UInt32 := do
  match Command.ofArguments arguments with
  | .error stop =>
    if stop = .help then IO.print usage else IO.eprint usage
    printReport (.ofStop stop)
  | .ok command =>
    let text ← textOfFile command.file
    printReport (.ofOutput (command.perform text))
