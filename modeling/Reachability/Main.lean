import Reachability.Counter.Report

/-! The command line of the counting demonstration. A command line that is not
understood ends with status 2, an abandoned run with status 1. -/

open Reachability.Counter in
def main (args : List String) : IO UInt32 := do
  match Options.ofArguments args with
  | none =>
    IO.eprintln "usage: counter [--order=ORDER] [--error=INT] [--join] [--all-errors] [-- INT]"
    return 2
  | some options =>
    let r := report options
    IO.println r.arguments
    for event in r.log do
      IO.eprintln event.line
    match r.findings with
    | .ok pieces =>
      for piece in pieces do
        IO.println piece
      return 0
    | .error reason =>
      IO.eprintln ((reason.map Reachability.Abort.message).getD "the run did not end")
      return 1
