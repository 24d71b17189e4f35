import LRMachine.CommandLine

/-!
# The program

Reads the file that the request names, if it names one, and prints the answer. The exit code is 0
for a tree, 1 for a failure and 2 for arguments that are not understood.
-/

namespace LRMachine.CommandLine

/-- The content of a file, if it can be read. -/
def readFile? (path : String) : IO (Option String) := do
  try
    return some (← IO.FS.readFile path)
  catch _ =>
    return none

/-- Prints an outcome and gives the exit code. -/
def report : Outcome → IO UInt32
  | .printed out notes => do
    IO.eprint notes
    IO.print out
    return 0
  | .misused notes => do
    IO.eprint notes
    return 2
  | .failed failure => do
    IO.eprintln ("error: " ++ failure.message)
    return 1

/-- Reads the file of a request, answers it and reports the answer. -/
def run (request : Request) : IO UInt32 := do
  match request.source with
  | .sum => report (request.answer none)
  | .file path => report (request.answer (← readFile? path))

end LRMachine.CommandLine

open LRMachine CommandLine in
/-- The command line. -/
def main (args : List String) : IO UInt32 :=
  match Request.ofArgs args with
  | none => report (.misused Request.usage)
  | some request => run request
