import Bundler.Build.Workplace
import Bundler.Report.Rule

/-!
# Installing packages

Packages are installed in batches, one call of the package manager for each. An installer remembers which
names it asked for and never asks for one twice. It looks twice at what is missing: before it waits for the
lock of the cache, and when it has it, since others may have installed some of it in between.
-/

namespace Bundler

/-- What one run has asked the package manager for. -/
structure Installer where
  requested : List String := []
  /-- How often the package manager was called. -/
  calls : Nat := 0
  deriving Repr

abbrev Installing := ActionWith Installer

/-- Compiler and rendering framework, and the style engine if it's wanted. -/
def basePackages (styles : Bool) : List String :=
  ["esbuild", "react", "react-dom"] ++
    if styles then ["@unocss/core", "@unocss/preset-uno", "@unocss/reset"] else []

namespace Installer

def source : String := "terrarium.engine.installer"

/-- Options of every install. -/
def flags : List String :=
  ["--no-audit", "--no-fund", "--loglevel=error"]

/-- Neither asked for nor installed. -/
def isPending (w : Workplace) (name : String) : Installing Bool := do
  if (← ActionWith.kept).requested.contains name then return false
  return !(← w.cache.isInstalled name)

/-- The names among the specifiers that still have to be installed. -/
def pending (w : Workplace) (specifiers : List String) : Installing (List String) := do
  let names ← MonadExcept.ofExcept (Package.distinctNames specifiers)
  names.filterM (isPending w)

def names (batch : List String) : String :=
  " ".intercalate batch

/-- The wording of a number of seconds. -/
def secondsText (q : Quantity) : Except Failure String :=
  return Layout.brief.write (← Settings.seconds q)

/-- A failure of the call; one that took too long counts as a failure of the network. -/
def callFailure (w : Workplace) (batch : List String) (f : Failure) : Failure :=
  match f with
  | .expired .. =>
    match secondsText w.settings.installTimeout with
    | .error f => f
    | .ok seconds =>
      .bundle
        { kind := .network
          message := "npm install timed out after " ++ seconds ++ "s: " ++ names batch
          packages := batch }
  | f => f

/-- The failure of a call that ended without success: one of the network if its output says so. -/
def exitFailure (batch : List String) (e : Execution) : Failure :=
  let output := e.printed
  if Text.containsAny output Marker.network then
    .bundle
      { kind := .network
        message := "Network error while installing " ++ names batch ++ ":\n" ++ Answer.tail output
        packages := batch, output }
  else
    .bundle
      { kind := .install
        message := "npm install failed for " ++ names batch ++ " (exit " ++ toString e.status ++ "):\n" ++
          Answer.tail output
        packages := batch, output }

/-- The arguments of the package manager for a batch. -/
def arguments (w : Workplace) (batch : List String) : List String :=
  ["install", "--prefix", w.cache.root.text] ++ flags ++ batch

/-- One call of the package manager. -/
def runBatch (w : Workplace) (batch : List String) : Installing Unit := do
  Action.write .info source ("Installing: " ++ names batch)
  ActionWith.update fun i => { i with calls := i.calls + 1 }
  let call := w.toolchain.npmCall (arguments w batch) w.cache.root w.settings.installTimeout
  match ← Action.attempt (Action.call call) with
  | .error f => throw (callFailure w batch f)
  | .ok e => if !e.succeeded then throw (exitFailure batch e)

/-- What is done when the lock is held: the batch is looked at again and what is left of it installed. -/
def installLocked (w : Workplace) (batch : List String) : Installing (List String) := do
  let batch ← pending w batch
  if batch.isEmpty then return []
  ActionWith.update fun i => { i with requested := i.requested ++ batch }
  runBatch w batch
  return batch

/-- Installs what is missing, and tells what the package manager was asked for. -/
def install (w : Workplace) (specifiers : List String) : Installing (List String) := do
  let batch ← pending w specifiers
  if batch.isEmpty then return []
  w.cache.acquire
  installLocked w batch

/-- Installs what every bundle needs. -/
def installBase (w : Workplace) (styles : Bool) : Installing (List String) :=
  install w (basePackages styles)

end Installer

end Bundler
