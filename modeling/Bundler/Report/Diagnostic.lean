import Bundler.Json.Display

/-!
# Compiler messages

A diagnostic is one message of the compiler: a text and, if the compiler knows it, a place. It is read
from any JSON value (`ofMessage`), since the compiler's answer isn't under our control, and written as an
object (`toJson`). The parts of the place are kept as they came. A message fails only if it's too large to be shown.
-/

namespace Bundler

structure Diagnostic where
  text : String
  file : Json := .null
  line : Json := .null
  column : Json := .null
  lineText : Json := .null

namespace Diagnostic

/-- The object under `location`; anything else there counts as no place. -/
def locationOf (message : Json) : Json :=
  match message.field "location" with
  | .obj fs => .obj fs
  | _ => .obj []

/-- What is shown as the text of a message; a value that isn't an object is a text on its own. -/
def textOf : Json → Json
  | .obj fs => ((Json.obj fs).field? "text").getD (.str "")
  | v => v

/-- A message whose text was shown. -/
def ofText (message : Json) (text : String) : Diagnostic :=
  let place := locationOf message
  { text
    file := place.field "file"
    line := place.field "line"
    column := place.field "column"
    lineText := place.field "lineText" }

/-- Reads a message. -/
def ofMessage (b : Json.Bounds) (message : Json) : Except Json.Excess Diagnostic :=
  ((textOf message).displayWithin b).map (ofText message)

/-- The place, `null` if neither file nor line is known. -/
def location (d : Diagnostic) : Json :=
  if d.file.isNull && d.line.isNull then .null
  else .obj [("file", d.file), ("line", d.line), ("column", d.column), ("lineText", d.lineText)]

def toJson (d : Diagnostic) : Json :=
  .obj [("text", .str d.text), ("location", d.location)]

/-- The text, after `file:line:column: ` if file and line are known. -/
def display (b : Json.Bounds) (d : Diagnostic) : Except Json.Excess String := do
  if d.file.truthy && !d.line.isNull then
    let file ← d.file.displayWithin b
    let line ← d.line.displayWithin b
    let column ← if d.column.truthy then d.column.displayWithin b else pure "0"
    return file ++ ":" ++ line ++ ":" ++ column ++ ": " ++ d.text
  return d.text

end Diagnostic

end Bundler
