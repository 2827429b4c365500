import QueryScribe.CommandLine.Run

/-!
# The program

Reads a source from a file or from the standard input and prints the code for a target.
-/

open QueryScribe CommandLine in
/-- Runs the program. -/
def main (args : List String) : IO UInt32 := do
  let stderr ← IO.getStderr
  match Settings.ofArguments args with
  | .error .help =>
    IO.println usage
    return 0
  | .error (.misuse m) =>
    stderr.putStrLn usage
    stderr.putStrLn m.report
    return 2
  | .ok settings =>
    let text ← match settings.path with
      | some path => IO.FS.readFile path
      | none => do (← IO.getStdin).readToEnd
    match settings.run text with
    | .done status out err =>
      IO.print out
      stderr.putStr err
      return status.toUInt32
    | .stopped _ =>
      stderr.putStrLn "a number cannot be converted"
      return 1
