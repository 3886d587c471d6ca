import Bundler.Build.Workplace

/-!
# The packages a component lacks

The compiler is asked for every import that it can't find. Of these specifiers, the ones of packages count,
each by its name, and of the names those that aren't installed, in alphabetical order. Nothing is changed.
-/

namespace Bundler.Missing

def source : String := "terrarium.engine.discovery"

def config (w : Workplace) (entry : Path) : Json :=
  w.config [("entry", .str entry.text)]

/-- The specifiers of an answer. -/
def specifiers (answer : Json) : Except Failure (List String) :=
  let malformed : Failure := Answer.protocolFault "discover driver: 'specifiers' must be a list of strings"
  match (answer.field? "specifiers").getD (.arr []) with
  | .arr xs =>
    match xs.mapM Json.str? with
    | some ss => .ok ss
    | none => .error malformed
  | _ => .error malformed

/-- The specifiers of packages, blank ones left out. -/
def bare (specifiers : List String) : Except Failure (List String) :=
  specifiers.filterM fun s => if Text.allBlank s then pure false else Package.isBare s

/-- The names of the packages in an answer, each once. -/
def names (answer : Json) : Except Failure (List String) := do
  Package.distinctNames (← bare (← specifiers answer))

/-- The names that aren't installed, in order. -/
def absent (c : Cache) (names : List String) : Action (List String) := do
  let names ← names.filterM fun n => return !(← c.isInstalled n)
  return names.mergeSort fun a b => decide (a ≤ b)

/-- The names of the packages that the component at an absolute path lacks. -/
def find (w : Workplace) (entry : Path) : Action (List String) := do
  let answer ← w.runPass .discover (config w entry)
  let missing ← absent w.cache (← MonadExcept.ofExcept (names answer))
  if missing.isEmpty then Action.write .debug source ("No missing packages for " ++ entry.text)
  else Action.write .info source ("Missing packages: " ++ " ".intercalate missing)
  return missing

end Bundler.Missing
