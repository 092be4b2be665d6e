/-
  Scriptling.Main — the command: reads the file, runs it and prints what it leaves.
-/

import Scriptling.Command

open Scriptling.Command in
def main (arguments : List String) : IO UInt32 := do
  let request := ofArguments arguments
  let content : Option ByteArray ←
    match request with
    | .run path => try some <$> IO.FS.readBinFile path catch _ => pure none
    | _ => pure none
  let report := request.report fun _ => content
  IO.print report.stdout
  IO.eprint report.stderr
  return report.status
