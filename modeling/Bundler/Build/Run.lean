import Bundler.Build.Installer
import Bundler.Build.Missing
import Bundler.Build.Result
import Bundler.Build.Script
import Bundler.Build.Styling

/-!
# A run

A run makes the cache ready, installs what every bundle needs, finds and installs what the component lacks,
compiles the script and adds a style sheet. It stops at the first step that fails and reports the failure
with the stage reached (`Run.run`). Nothing fails any more once the script is there.
-/

namespace Bundler

/-- A failure and the stage reached before it. -/
structure Halt where
  failure : Failure
  stage : Stage

abbrev Staged := ExceptT Halt (StateM Host)

namespace Run

def source : String := "terrarium.pipeline"

/-- A step whose failure halts the run at a stage. -/
def during (stage : Stage) (a : Action α) : Staged α :=
  ExceptT.mk fun h =>
    let (r, h) := a.run h
    (r.mapError (⟨·, stage⟩), h)

/-- A step that can't fail. -/
def always (a : StateM Host α) : Staged α :=
  ExceptT.lift a

def note (level : Level) (text : String) : Staged Unit :=
  always (modify fun h => { h with log := h.log ++ [⟨level, source, text⟩] })

def advance (before after : Stage) : Staged Unit :=
  note .debug ("Pipeline: " ++ before.name ++ " -> " ++ after.name)

/-- The component's file: what its path means, if a file is there. -/
def entryFile (entry : Path) : Action Path := do
  let resolved ← Action.resolve (← Action.expandHome entry)
  if ← Action.isFile resolved then return resolved
  else throw (.bundle { kind := .entryNotFound, message := "File not found: " ++ resolved.text })

/-- The workplace of a run, on the toolchain of the host. -/
def workplace (s : Settings) : Action Workplace := do
  return { cache := Cache.ofSettings s, toolchain := ← Toolchain.discover s.node, settings := s }

/-- Installs what every bundle needs; the first install of a cache is news. -/
def installBase (w : Workplace) : Action Installer := do
  let first ← w.cache.needsInstall
  if first then Action.announce "install-started"
  let r ← Action.attempt ((Installer.installBase w w.settings.styles).toAction {})
  if first then Action.announce "install-finished"
  return (← MonadExcept.ofExcept r).2

/-- Installs what the component lacks; all of it has to be there afterwards. -/
def installMissing (w : Workplace) (i : Installer) (missing : List String) : Action Unit := do
  let _ ← (Installer.install w missing).toAction i
  let absent ← missing.filterM fun n => return !(← w.cache.isInstalled n)
  if !absent.isEmpty then
    throw (.bundle
      { kind := .install
        message := "Packages still missing after install: " ++ Installer.names absent
        packages := absent })

/-- The script with a style sheet, if styles are wanted and one is found; and whether it has one. -/
def style (w : Workplace) (script : String) : Staged (String × Bool) := do
  if !w.settings.styles then
    advance .finalized .unstyled
    return (script, false)
  let o ← always (Styling.synthesize w script)
  if o.succeeded then
    advance .finalized .styled
    return (o.apply script, true)
  else
    note .warning
      ("Style generation failed, continuing without styles: " ++ o.error.getD "None")
    advance .finalized .unstyled
    return (script, false)

/-- The steps of a run up to its last stage but one. -/
def steps (s : Settings) (entry : Path) : Staged (String × Bool) := do
  during .init (Cache.ofSettings s).ensure
  advance .init .cacheReady
  let resolved ← during .cacheReady (entryFile entry)
  let w ← during .cacheReady (workplace s)
  let installer ← during .cacheReady (installBase w)
  advance .cacheReady .baseInstalled
  let missing ← during .baseInstalled (Missing.find w resolved)
  advance .baseInstalled .discovered
  during .discovered (installMissing w installer missing)
  advance .discovered .missingInstalled
  let script ← during .missingInstalled (Script.compile w (Harness.text resolved) resolved)
  advance .missingInstalled .finalized
  style w script

/-- The result of steps that halted. -/
def halted (halt : Halt) : Action BuildResult := do
  let e ← MonadExcept.ofExcept (Envelope.ofFailure (← get).limits.toReport Rule.table halt.failure)
  Action.write .error source
    ("Bundle failed (" ++ e.type.name ++ ", stage=" ++ halt.stage.name ++ "): " ++ Text.headline e.message)
  return .failure e halt.stage

/-- Bundles the component at a path. -/
def run (s : Settings) (entry : Path) : Action BuildResult := do
  match ← ExceptT.lift (steps s entry).run with
  | .ok (script, styled) =>
    let last : Stage := if styled then .styled else .unstyled
    Action.write .debug source ("Pipeline: " ++ last.name ++ " -> " ++ Stage.done.name)
    return .success script styled
  | .error halt => halted halt

/-- Bundles the component at a path given as a value of any kind. -/
def runJson (s : Settings) : Json → Action BuildResult
  | .str entry => run s (Path.ofString entry)
  | v => halted ⟨.mismatch (.notPath v.typeName), .init⟩

end Run

end Bundler
