import Bundler.Build.StyleOutcome
import Bundler.Build.Workplace

/-!
# Looking for a style sheet

The style engine reads the script as a text in which the names of classes stand. A style sheet is a gain and
not a need: whatever goes wrong is an outcome, never a failure.
-/

namespace Bundler.Styling

def config (w : Workplace) (script : String) : Json :=
  w.config [("corpus", .str script)]

/-- The style sheet of an answer. -/
def ofAnswer (answer : Json) : StyleOutcome :=
  match answer.field "css" with
  | .str css => { css := some css }
  | _ => { error := some "styles driver: 'css' must be a string" }

def ofFailure (f : Failure) : StyleOutcome :=
  { error := some (f.label ++ ": " ++ f.message) }

/-- What comes of looking for a style sheet for a script. -/
def synthesize (w : Workplace) (script : String) : StateM Host StyleOutcome := do
  match ← (w.runPass .styles (config w script)).run with
  | .ok answer => return ofAnswer answer
  | .error f => return ofFailure f

end Bundler.Styling
