import ShardLedger.Command.Execute

/-!
# The program

Runs simulation campaigns from the command line.
-/

/-- Print the output of the command line and end with its code. -/
def main (words : List String) : IO UInt32 := do
  let out := ShardLedger.Command.execute words
  (← IO.getStdout).putStr out.printed
  (← IO.getStderr).putStr out.complaint
  return UInt32.ofNat out.code
