import Bundler.Report.Failure
import Bundler.Json.Writer

/-!
# Reports of failures

An envelope is what a caller gets in place of a script: the type of the failure, its message and the
compiler's diagnostics. `Envelope.toJson` is its form as an object, with the fields always in one order.
-/

namespace Bundler

structure Envelope where
  type : ErrorType
  message : String
  diagnostics : List Diagnostic := []

namespace Envelope

/-- An envelope for a type and a message given as values of any kind. -/
def ofJson (b : Json.Bounds) (type message : Json) (diagnostics : List Diagnostic) : Except Failure Envelope := do
  match ErrorType.ofJson? type with
  | some t => return { type := t, message := ← (message.displayWithin b).mapError .excess, diagnostics }
  | none => throw (.unknownType (← (type.inspectWithin b).mapError .excess))

def toJson (e : Envelope) : Json :=
  .obj [("error", .bool true), ("type", .str e.type.name), ("message", .str e.message),
    ("diagnostics", .arr (e.diagnostics.map Diagnostic.toJson))]

def encode (b : Json.Bounds) (e : Envelope) : Except Failure String :=
  (e.toJson.encode b).mapError .excess

end Envelope

end Bundler
