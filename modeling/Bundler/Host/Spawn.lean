import Bundler.Host.State
import Bundler.Text.Utf8

/-!
# Starting a program

`Action.spawn` starts the program that a call names, for real. What the system makes of that is a parameter: it may
refuse to start the program, stop it when its time is over, or let it come to its end. A program that is missing or
may not be executed is a failure of the toolchain, any other refusal the system's own.
-/

namespace Bundler

/-- What the system makes of a program that it's asked to start. -/
inductive Started where
  /-- It isn't started, because of the file named. -/
  | refused (e : Errno) (file : String)
  /-- It was stopped when the time allowed was over. -/
  | overdue
  /-- It has ended with a status and two outputs, and this is the tree now. -/
  | ended (status : Int) (stdout stderr : List Nat) (tree : Tree)

/-- The text that a program wrote, every line ending read as LF. -/
def Started.decoded (bytes : List Nat) : String :=
  String.ofList (Text.unixLines (Text.Utf8.repair bytes))

/-- Why a call never reaches the system. -/
def Call.unstartable? (c : Call) (env : Environment) : Option Failure :=
  if c.argv.isEmpty then some .nothingToStart
  else if env.any fun v => v.1.toList.contains '=' then some .variableName
  else
    let texts := c.argv ++ c.cwd.toList.map Path.text ++ env.flatMap fun v => [v.1, v.2]
    if texts.any fun s => s.toList.contains '\x00' then some .nulInPath else none

namespace Action

/-- Starts a program and waits for its end. -/
def spawn (start : Host → Call → Started) (c : Call) : Action Execution := do
  let h ← get
  if let some f := c.unstartable? (c.env.getD h.env) then throw f
  match start h c with
  | .refused e file => throw (c.refused e [file])
  | .overdue => throw (c.failure .timeout)
  | .ended status stdout stderr tree =>
    set { h with tree }
    return { argv := c.argv, status, stdout := Started.decoded stdout, stderr := Started.decoded stderr }

end Action

end Bundler
