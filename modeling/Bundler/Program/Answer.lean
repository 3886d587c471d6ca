import Bundler.Host.Call
import Bundler.Json.Reader
import Bundler.Text.Blank
import Bundler.Text.Search

/-!
# Answers of programs

A program of a pass prints one JSON object, whose field `ok` says whether the pass succeeded.
`Answer.read` gives the object of a success and otherwise the failure: of the protocol if there is no such
object, of the compiler if the answer lists errors, and else of bundling in general.
-/

namespace Bundler.Answer

/-- The trimmed end of a text, at most 1500 characters of it. -/
def tail (s : String) : String :=
  String.ofList (Text.lastChars 1500 (Text.trim s.toList))

def protocolFault (message : String) : Failure :=
  .bundle { kind := .protocol, message }

/-- What a program printed last, errors before output. -/
def lastWords (e : Execution) : String :=
  if !(tail e.stderr).isEmpty then tail e.stderr
  else if !(tail e.stdout).isEmpty then tail e.stdout
  else "(no output)"

/-- What an answer says that its pass failed. -/
def messageOf (b : Json.Bounds) (pass : String) (answer : Json) : Except Json.Excess String :=
  let message := answer.field "message"
  if message.truthy then message.displayWithin b else .ok (pass ++ " failed")

/-- The diagnostics of an answer that lists errors. -/
def diagnosticsOf (b : Json.Bounds) (errors : Json) : Except Failure (List Diagnostic) := do
  ((← Failure.itemsOf errors).mapM (Diagnostic.ofMessage b)).mapError .excess

/-- The failure that an answer reports. -/
def rejection (b : Json.Bounds) (pass : String) (answer : Json) : Except Failure Failure := do
  let message ← (messageOf b pass answer).mapError .excess
  let errors := answer.field "errors"
  if errors.truthy then return .bundle { kind := .compile, message, diagnostics := ← diagnosticsOf b errors }
  else return .bundle { kind := .general, message }

/-- The output isn't an answer at all. -/
def unanswered (pass : String) (e : Execution) : Failure :=
  protocolFault (pass ++ " driver exited with code " ++ toString e.status ++ ":\n" ++ lastWords e)

/-- The accepted answer of a program of the pass of that name. -/
def read (l : Limits) (pass : String) (e : Execution) : Except Failure Json :=
  match Json.parse l.toRead e.stdout with
  | .error (.excess (.levels doing)) => .error (.excess (.levels doing))
  | .error _ => .error (unanswered pass e)
  | .ok answer =>
    match answer.field? "ok" with
    | none => .error (protocolFault (pass ++ " driver returned an unexpected answer"))
    | some ok =>
      if ok.truthy then .ok answer
      else
        match rejection l.toShow pass answer with
        | .ok f | .error f => .error f

end Bundler.Answer
