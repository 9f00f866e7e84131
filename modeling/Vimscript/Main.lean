import Vimscript.CommandLine

/-!
# The command

Hands the arguments and, where they hold no expression, standard input to the command line, and
writes its report.
-/

namespace Vimscript.CommandLine

/-- Everything that a stream still holds. -/
partial def readAll (stream : IO.FS.Stream) (read : String) : IO String := do
  let line ← stream.getLine
  if line.isEmpty then return read else readAll stream (read ++ line)

/-- Writes a report and gives its exit code. -/
def Report.write (report : Report) : IO UInt32 := do
  IO.print (String.ofList report.output)
  for message in report.errors do
    IO.eprintln (String.ofList message)
  return report.exitCode.toUInt32

end Vimscript.CommandLine

/-- Runs the command on its arguments. -/
def main (args : List String) : IO UInt32 := do
  let request := Vimscript.CommandLine.request (args.map String.toList)
  let input ← match request with
    | .read _ [] => do Vimscript.CommandLine.readAll (← IO.getStdin) ""
    | _ => pure ""
  (Vimscript.CommandLine.answer input.toList request).write
