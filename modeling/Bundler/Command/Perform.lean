import Bundler.Build.Run
import Bundler.Command.Line
import Bundler.Watch

/-!
# Performing commands

A command writes to the host's standard output and ends with an exit code. A run that fails is reported on
standard output and ends with 1; so does a command that fails itself. The lines of the log that are shown are
those of the level asked for and above (`Command.shownLog`).
-/

namespace Bundler.Command

def versionText : String := "0.1.0"

/-- The settings of the host's environment, and those given by name. -/
def settings (given : List (String × Json) := []) : Action Settings := do
  let h ← get
  MonadExcept.ofExcept (Settings.ofEnvironment h.home h.env given)

/-- What is written of a result: a script as it is or framed in an object, a failure as its report. -/
def output (b : Json.Bounds) (framed : Bool) (r : BuildResult) : Except Failure String :=
  match r, framed with
  | .success script _, false => .ok script
  | r, _ => (r.document.encode b).mapError .excess

def exitCode : BuildResult → Nat
  | .success .. => 0
  | .failure .. => 1

/-- Writes a result and gives the exit code. -/
def emit (b : Json.Bounds) (framed : Bool) (r : BuildResult) : Action Nat := do
  Action.echo (← MonadExcept.ofExcept (output b framed r))
  return exitCode r

def runBundle (entry : String) (styles framed : Bool) : Action Nat := do
  let s ← settings [("styles", .bool styles)]
  modify fun h => { h with news := .dropped }
  let r ← Run.run s (Path.ofString entry)
  emit (← get).limits.toReport framed r

/-- An event is a line. -/
def tell (event : Json) : Action Unit := do
  Action.echoLine (← MonadExcept.ofExcept ((event.encode (← get).limits.toTell).mapError .excess))

/-- Watches until the user interrupts. -/
def runWatch (entry : String) (styles : Bool) (debounce : Int) (pollInterval : Float) : Action Nat := do
  let s ← settings [("styles", .bool styles)]
  modify fun h => { h with news := .printed }
  let o : Watch.Options := { debounce := .int debounce, pollInterval := .real pollInterval }
  let watch : ActionWith Unit Nat :=
    Watch.watch o (Path.ofString entry) (fun p => Run.run s p) (fun e => tell e)
  match ← Action.attempt (watch.toAction ()) with
  | .ok _ | .error .interrupted => return 0
  | .error f => throw f

def showCache : Action Nat := do
  let s ← settings
  let c := Cache.ofSettings s
  Action.echoLine ("cache: " ++ c.root.text)
  for name in basePackages s.styles do
    Action.echoLine ("  " ++ name ++ ": " ++ if ← c.isInstalled name then "installed" else "missing")
  return 0

/-- Does what is asked for and gives the exit code. -/
def perform : Command → Action Nat
  | .bundle entry styles framed => runBundle entry styles framed
  | .watch entry styles debounce pollInterval => runWatch entry styles debounce pollInterval
  | .cachePath => do
    Action.echoLine (← settings).cacheDir.text
    return 0
  | .cacheStatus => showCache
  | .version => do
    Action.echoLine versionText
    return 0

/-- The lines of the log that are shown. -/
def shownLog (verbose : Bool) (log : List LogLine) : String :=
  String.join ((log.filter fun l => verbose || l.level != .debug).map fun l =>
    "[terrarium] " ++ l.level.name ++ " " ++ l.text ++ "\n")

end Bundler.Command
