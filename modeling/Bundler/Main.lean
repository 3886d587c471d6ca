import Bundler.Command.Perform
import Bundler.Host.Description
import Bundler.Json.Reader

/-!
# The command line

A rehearsal: the arguments are those of the program, a first argument `bundle-only` standing for the one that
only bundles, and the host is read as one line of JSON from standard input. Output, log and exit code are
those that the program has on that host.
-/

open Bundler

/-- Performs a command on a host that is written down. -/
def rehearse (program : Command.Program) (args : List String) (description : String) : IO UInt32 := do
  let limits := Limits.standard
  match Command.read limits.digits program args with
  | .error usage =>
    return if usage = .help then 0 else 2
  | .ok (command, verbose) =>
    let root := Path.ofString "/"
    match Host.ofJson root (root.child "packages") ((Json.parse? description).getD (.obj [])) with
    | .error f => complain f
    | .ok host =>
      let (r, host) := (Command.perform command).run { host with limits }
      (← IO.getStdout).putStr host.stdout
      (← IO.getStderr).putStr (Command.shownLog verbose host.log)
      match r with
      | .ok code => return code.toUInt32
      | .error f => complain f
where
  complain (f : Failure) : IO UInt32 := do
    (← IO.getStderr).putStrLn (f.label ++ ": " ++ f.message)
    return 1

def main (args : List String) : IO UInt32 := do
  let description ← (← IO.getStdin).getLine
  match args with
  | "bundle-only" :: args => rehearse .bundleOnly args description
  | args => rehearse .full args description
