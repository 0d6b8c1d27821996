import SequenceConstraint.CommandLine.Outcome

/-!
# The program
-/

/-- Prints what the arguments ask for. -/
def main (arguments : List String) : IO UInt32 := do
  let outcome := SequenceConstraint.CommandLine.run arguments
  (← IO.getStdout).putStr outcome.output
  (← IO.getStderr).putStr outcome.errors
  return UInt32.ofNat outcome.code
