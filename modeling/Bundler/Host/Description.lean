import Bundler.Host.Run

/-!
# Hosts written down

A host can be written down as a JSON object: variables of the environment (`env`), common places of node
(`candidates`), changes that make its tree (`world`), queues of outcomes (`npm`, `discover`, `finalize`,
`styles`), and a clock (`start`, `changes` by the count of sleeps, `stop_after`). `Host.ofJson` reads one. What
is missing or of another kind counts as not said.
-/

namespace Bundler

namespace Description

def list (v : Json) (key : String) : List Json :=
  match v.field key with
  | .arr xs => xs
  | _ => []

def fields (v : Json) (key : String) : List (String × Json) :=
  match v.field key with
  | .obj fs => fs
  | _ => []

def text? (v : Json) (key : String) : Option String :=
  (v.field key).str?

def text (v : Json) (key : String) : String :=
  (text? v key).getD ""

def texts (v : Json) (key : String) : List String :=
  (list v key).filterMap Json.str?

def path (v : Json) (key : String) : Path :=
  Path.ofString (text v key)

def integer? (v : Json) (key : String) : Option Int :=
  match v.field key with
  | .num (.int n) => some n
  | _ => none

def number? (v : Json) (key : String) : Option Number :=
  match v.field key with
  | .num n => some n
  | _ => none

def environment (fs : List (String × Json)) : Environment :=
  fs.filterMap fun f => f.2.str?.map (f.1, ·)

/-- A change, by the field that names what is changed. -/
def change? (packages : Path) (v : Json) : Option Change :=
  if (text? v "write").isSome then
    some (.write (path v "write") (text v "text") (v.field "exec").truthy (integer? v "ns"))
  else if (text? v "mkdir").isSome then some (.mkdir (path v "mkdir"))
  else if (text? v "link").isSome then some (.link (path v "link") (text v "to"))
  else if (text? v "remove").isSome then some (.remove (path v "remove"))
  else if (text? v "touch").isSome then some (.touch (path v "touch") ((integer? v "ns").getD 0))
  else if (v.field? "install").isSome then some (.install packages (texts v "install"))
  else none

/-- Changes; the ones that install packages do so in the directory given. -/
def changes (packages : Path) (vs : List Json) : List Change :=
  vs.filterMap (change? packages)

def installs (v : Json) : Installs :=
  match v.field "install" with
  | .arr xs => .these (xs.filterMap Json.str?)
  | .bool true => .all
  | .bool false => .none
  | _ => .bySuccess

def stop? : String → Option Stop
  | "timeout" => some .timeout
  | "missing" => some .missing
  | "denied" => some .denied
  | "memory" => some .noMemory
  | _ => none

def outcome (packages : Path) (v : Json) : Outcome :=
  match stop? (text v "raise") with
  | some why => .stops why
  | none =>
    let stdout := ((v.field? "answer").map Json.write).or (text? v "stdout")
    .ends ((integer? v "returncode").getD 0) stdout (text v "stderr") (changes packages (list v "changes"))
      (installs v)

def outcomes (packages : Path) (v : Json) : Outcomes :=
  let queue := fun key => (list v key).map (outcome packages)
  { npm := queue "npm", discover := queue "discover", finalize := queue "finalize", styles := queue "styles" }

/-- Changes by the count of sleeps, written without leading zeros. -/
def schedule (packages : Path) (fs : List (String × Json)) : List (Nat × List Change) :=
  fs.filterMap fun f =>
    match f.1.toNat?, f.2 with
    | some n, .arr cs => if toString n = f.1 then some (n, changes packages cs) else none
    | _, _ => none

def clock (packages : Path) (v : Json) : Clock :=
  { now := (number? v "start").getD (.real 100.0)
    changes := schedule packages (fields v "changes")
    stopAfter := ((integer? v "stop_after").getD 60).toNat }

/-- Node and its package manager in `bin`. -/
def tools (root : Path) : List Change :=
  [.write ((root.child "bin").child "node") "" true none, .write ((root.child "bin").child "npm") "" true none]

end Description

open Description in
/-- The host that is written down, below a root directory, in which it has a home and, unless the field
`no_tools` says otherwise, a toolchain. Packages of its tree are installed in `cache`, those of later outcomes
in `packages`. It fails as the first change does of which its tree can't be made. -/
def Host.ofJson (root packages : Path) (v : Json) : Except Failure Host := do
  let own := (root.child "cache").child "node_modules"
  let setup := .mkdir root :: (if (v.field "no_tools").truthy then [] else tools root) ++
    changes own (list v "world")
  let env : Environment := [("HOME", (root.child "home").text), ("PATH", (root.child "bin").text)]
  let (made, tree) := (Change.applyAll root.parts setup).run {}
  made
  return {
    tree, cwd := root.parts
    env := (environment (fields v "env")).foldl (fun env p => env.set p.1 p.2) env
    candidates := texts v "candidates"
    outcomes := Description.outcomes packages v
    clock := Description.clock own v }

end Bundler
