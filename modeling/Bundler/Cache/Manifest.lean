import Bundler.Host.State
import Bundler.Json.Reader
import Bundler.Json.Writer
import Bundler.Text.Blank

/-!
# The manifest of the cache

The cache is a private project of the package manager, and its manifest only says so: `Manifest.build` is
what it holds. It is written indented, with a line end (`write`), and any object is accepted when one is
read (`read`), within the bounds of the place where it's done.
-/

namespace Bundler.Manifest

def fileName : String := "package.json"

def defaultName : Json := .str "terrarium-cache"

/-- A name is a string that isn't blank. -/
def build (name : Json) : Except Failure Json :=
  match name with
  | .str s =>
    if Text.allBlank s then .error .manifestName
    else .ok (.obj [("name", .str (Text.trimmed s)), ("private", .bool true)])
  | _ => .error .manifestName

/-- The text of a manifest file. -/
def text (m : Json) : String :=
  m.writeIndented ++ "\n"

def ofText (b : Json.Bounds) (s : String) : Except Failure Json :=
  match Json.parse b s with
  | .error .malformed => .error .malformedJson
  | .error (.excess e) => .error (.excess e)
  | .ok (.obj fs) => .ok (.obj fs)
  | .ok _ => .error .manifestNotObject

/-- Writes a manifest that isn't too much to be written, as one that was built never is: it has two fields, and no
number. -/
def put (p : Path) (m : Json) : Action Unit := do
  Action.makeDirs p.parent
  Action.writeText p (text m)

def write (b : Json.Bounds) (p : Path) (m : Json) : Action Unit := do
  Action.makeDirs p.parent
  let _ ← MonadExcept.ofExcept ((m.encodeIndented b).mapError .excess)
  Action.writeText p (text m)

def read (b : Json.Bounds) (p : Path) : Action Json := do
  MonadExcept.ofExcept (ofText b (← Action.readText p))

end Bundler.Manifest
