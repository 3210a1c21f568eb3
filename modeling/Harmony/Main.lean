import Harmony.CommandLine.Run

/-! # The program -/

open Harmony

/-- Prints the outcome of a run and exits with its code. -/
def main (args : List String) : IO UInt32 := do
  let outcome := CommandLine.run args
  let errors ← IO.getStderr
  for record in outcome.log do
    errors.putStrLn record.line
  (← IO.getStdout).putStr outcome.stdout
  errors.putStr outcome.stderr
  return UInt32.ofNat outcome.code
