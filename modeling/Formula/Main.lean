import Formula.CommandLine

/-!
# The program

Prints the answer to the command line: values and listings on standard output, what is
wrong on standard error.
-/

/-- Answers a command. -/
def main (args : List String) : IO UInt32 := do
  let answer := Formula.CommandLine.answer args
  IO.print answer.output
  if let some complaint := answer.complaint then
    IO.eprintln complaint
  return answer.exitCode
