import Bundler.Json.Writer

/-!
# Style sheets

A style sheet that was found is put in front of the script as a snippet that makes a style element when it
runs, in place of one that an earlier script made. Where none was found the script stays as it is.
-/

namespace Bundler

/-- What came of looking for a style sheet. -/
structure StyleOutcome where
  css : Option String := none
  error : Option String := none
  deriving DecidableEq, Repr

namespace StyleOutcome

def succeeded (o : StyleOutcome) : Bool :=
  o.error.isNone && o.css.isSome

def elementId : String := "terrarium-styles"

/-- The snippet before the style sheet's literal. -/
def opening : String :=
  "(function () \x7b\n" ++
  "  var id = " ++ Json.literal elementId ++ ";\n" ++
  "  var previous = document.getElementById(id);\n" ++
  "  if (previous) previous.remove();\n" ++
  "  var style = document.createElement('style');\n" ++
  "  style.id = id;\n" ++
  "  style.textContent = "

/-- The snippet after the style sheet's literal. -/
def closing : String :=
  ";\n  document.head.appendChild(style);\n\x7d)();\n"

def snippet (css : String) : String :=
  opening ++ Json.literal css ++ closing

/-- The script with the style sheet, if one was found. -/
def apply (o : StyleOutcome) (script : String) : String :=
  if o.succeeded then snippet (o.css.getD "") ++ script else script

end StyleOutcome

end Bundler
