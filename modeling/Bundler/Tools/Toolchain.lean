import Bundler.Host.Run
import Bundler.Settings
import Bundler.Tools.Version

/-!
# Node and its package manager

Node is looked for where the settings say, on the search path, at common places, and among the versions of
a version manager, of which the newest counts. The package manager is looked for with node's own directory
put in front of the search path (`Toolchain.environment`), so that one that came with that node is taken
before any other.
-/

namespace Bundler

namespace SearchPath

/-- The search path of an environment that has none. -/
def standard : String := "/bin:/usr/bin"

/-- The file `name` of a directory as the search path spells it; an empty entry is the working directory. -/
def candidate (dir name : String) : String :=
  if dir.isEmpty then name
  else if "/".toList.isSuffixOf dir.toList then dir ++ name
  else dir ++ "/" ++ name

/-- An executable file is at the end of the path. -/
def isProgram (h : Host) (p : Path) : Bool :=
  match h.tree.stat h.cwd p with
  | .ok (.file _ x _) => x
  | _ => false

/-- The first entry of a search path that holds the program. -/
def find? (h : Host) (search name : String) : Option Path :=
  if search.isEmpty then none
  else ((Text.pieces ':' search).map fun dir => Path.ofString (candidate dir name)).find? (isProgram h)

end SearchPath

structure Toolchain where
  node : Path
  npm : Path
  env : Environment
  deriving Repr

namespace Toolchain

def source : String := "terrarium.engine.toolchain"

def fault (message : String) : Failure :=
  .bundle { kind := .toolchain, message }

def nodeNotFound : String := "Node.js not found. Install it from https://nodejs.org"

/-- The program of a version in the version manager's directory. -/
def programOf (versions : Path) (name : String) : Path :=
  ((versions.child name).child "bin").child "node"

/-- Node of the newest version that the version manager of a home directory holds. -/
def managedNode (home : Path) : Action (Option Path) := do
  let versions := ((home.child ".nvm").child "versions").child "node"
  if !(← Action.isDir versions) then return none
  let names ← Action.observe versions fun t cwd => do t.list (← t.locate cwd versions)
  let usable ← names.filterM fun name => Action.exists? (programOf versions name)
  return (Version.newest? usable).map (programOf versions)

/-- The first of the paths where something is. -/
def firstThere : List Path → Action (Option Path)
  | [] => return none
  | p :: ps => do if ← Action.exists? p then return some p else firstThere ps

/-- Node of the settings, else of the search path, else of a common place, else of the version manager in a
home directory, the user's if none is given. -/
def locateNode (explicit : Option Path) (home : Option Path) : Action Path := do
  match explicit with
  | some p =>
    if ← Action.exists? p then return p
    else throw (fault ("Configured node binary not found: " ++ p.text))
  | none =>
    let h ← get
    match SearchPath.find? h ((h.env.get? "PATH").getD SearchPath.standard) "node" with
    | some p => return p
    | none =>
      match ← firstThere (h.candidates.map Path.ofString) with
      | some p => return p
      | none =>
        let home ← match home with
          | some p => pure p
          | none => MonadExcept.ofExcept (Path.ofHome h.home)
        match ← managedNode home with
        | some p => return p
        | none => throw (fault nodeNotFound)

/-- An environment with node's directory first on the search path. -/
def environment (node : Path) (base : Environment) : Environment :=
  let rest := (base.nonempty? "PATH").getD "/usr/bin:/bin"
  base.set "PATH" (node.parent.text ++ ":" ++ rest)

/-- The package manager on the search path of an environment, or of the host where that has none. -/
def locateNpm (node : Path) (env : Environment) : Action Path := do
  let h ← get
  let search := ((env.get? "PATH").or (h.env.get? "PATH")).getD SearchPath.standard
  match SearchPath.find? h search "npm" with
  | some p => return p
  | none => throw (fault ("npm not found next to " ++ node.text))

/-- The toolchain of the host. -/
def discover (explicit : Option Path) : Action Toolchain := do
  let node ← locateNode explicit none
  let env := environment node (← get).env
  let npm ← locateNpm node env
  Action.write .debug source ("Using node=" ++ node.text ++ " npm=" ++ npm.text)
  return { node, npm, env }

/-- The call that gives node a program to run. -/
def nodeCall (t : Toolchain) (pass : Pass) (program : String) (cwd : Path) (timeout : Quantity) : Call where
  kind := .pass pass
  argv := [t.node.text, "--input-type=module", "-"]
  cwd := some cwd
  input := some program
  env := some t.env
  timeout := some timeout

def npmCall (t : Toolchain) (args : List String) (cwd : Path) (timeout : Quantity) : Call where
  kind := .npm
  argv := t.npm.text :: args
  cwd := some cwd
  env := some t.env
  timeout := some timeout

end Toolchain

end Bundler
