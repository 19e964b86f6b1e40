import Rendezvous.Command

/-!
# The program

Reads the arguments and the file, and prints the report.
-/

open Rendezvous

/-- The text of a file, if it can be read. -/
def readText? (path : String) : IO (Option String) := do
  try
    let text ← IO.FS.readFile path
    pure (some text)
  catch _ =>
    pure none

/-- The command line. -/
def main (args : List String) : IO UInt32 := do
  match Invocation.ofArgs? args with
  | none =>
    IO.eprintln "usage: run <file> [--max-steps N] [-v]"
    pure (UInt32.ofNat Report.badUsage.exitCode)
  | some invocation =>
    let text ← match invocation.file? with
      | some file => readText? file
      | none => pure none
    let seed ← IO.rand 1 0xefffffff
    let report := invocation.report text ⟨seed * Supply.stride⟩
    for line in report.lines do
      IO.println line
    pure (UInt32.ofNat report.exitCode)
