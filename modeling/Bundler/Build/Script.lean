import Bundler.Build.Harness
import Bundler.Build.Workplace

/-!
# The script

The compiler gets the harness as text, with the component's directory as the place from which it resolves
imports, and answers with the script, which must not be blank.
-/

namespace Bundler.Script

def source : String := "terrarium.engine.finalize"

/-- The file name under which the compiler reports errors of the harness. -/
def harnessFile : String := "terrarium-entry.tsx"

def config (w : Workplace) (harness : String) (entry : Path) : Json :=
  w.config [("harness", .str harness), ("resolveDir", .str entry.parent.text), ("sourcefile", .str harnessFile)]

/-- The script of an answer. -/
def scriptOf (answer : Json) : Except Failure String :=
  match answer.field "text" with
  | .str s =>
    if Text.allBlank s then .error (.bundle { kind := .compile, message := "Build produced an empty script" })
    else .ok s
  | _ => .error (Answer.protocolFault "finalize driver: 'text' must be a string")

/-- The script of a harness for the component at an absolute path. -/
def compile (w : Workplace) (harness : String) (entry : Path) : Action String := do
  let answer ← w.runPass .finalize (config w harness entry)
  let script ← MonadExcept.ofExcept (scriptOf answer)
  Action.write .debug source
    ("Finalized " ++ entry.text ++ " (" ++ toString script.length ++ " chars)")
  return script

end Bundler.Script
