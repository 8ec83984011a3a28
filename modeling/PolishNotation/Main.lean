import PolishNotation.CommandLine.Outcome

/-- The program writes its output and its diagnostics and returns the exit code. -/
def main (arguments : List String) : IO UInt32 := do
  let outcome := PolishNotation.CommandLine.outcome (arguments.map String.toList)
  (← IO.getStdout).putStr (String.ofList outcome.output)
  (← IO.getStderr).putStr (String.ofList outcome.diagnostics)
  return outcome.exitCode.toUInt32
