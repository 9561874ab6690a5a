import LogSweep.CommandLine

/-!
# The programs

The only module that touches the system: it hands over arguments, standard
input and files, and prints the outcome.
-/

namespace LogSweep

instance : FileStore IO where
  read path := do
    try
      return .ok (← IO.FS.readBinFile path).data.toList
    catch
      | .noFileOrDirectory .. => return .error .missing
      | .inappropriateType .. => return .error .isDirectory
      | error => throw error
  write path contents := IO.FS.writeBinFile path ⟨contents.toArray⟩

/-- Prints the outcome of a program and returns its exit code. -/
def Outcome.report (outcome : Outcome) : IO UInt32 := do
  IO.print outcome.output
  return outcome.exitCode.toUInt32

/-- Cleans up standard input to standard output. -/
def filterMain : IO UInt32 := do
  let input ← (← IO.getStdin).readBinToEnd
  (runFilter input.data.toList).report

end LogSweep

/-- Cleans up the file named by the arguments. -/
def main (arguments : List String) : IO UInt32 := do
  (← LogSweep.runArguments arguments).report
