import WhileSketch.Command

/-! The command line: the name of a command and its arguments. -/

open WhileSketch

def contents? (name : String) : IO (Option String) := do
  try
    return some (← IO.FS.readFile name)
  catch _ =>
    return none

def main (words : List String) : IO UInt32 := do
  match words with
  | name :: args =>
    let contents ← contents? (args.headD "")
    let command := (Command.ofName? name).getD .idle
    match command.run Decision.solver (fun _ => contents) args with
    | .ok r =>
      (← IO.getStdout).putStr r.stdout
      (← IO.getStderr).putStr r.stderr
      return r.exitCode.toUInt32
    | .error f =>
      (← IO.getStderr).putStrLn f.message
      return 1
  | [] =>
    (← IO.getStderr).putStrLn "Usage: <command> <arguments>"
    return 1
