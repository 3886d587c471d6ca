import Bundler.Disk.Tree

/-!
# Changes of a tree

A change is something that others do to the tree: a user who saves a file, a package manager that installs
packages. A change that the tree refuses fails as the step of it does that was refused; what was done before
stays done (`Change.apply`).
-/

namespace Bundler

inductive Change where
  /-- A file with the directories above it, and perhaps the time of its change. -/
  | write (path : Path) (text : String) (executable : Bool) (ns : Option Int)
  | mkdir (path : Path)
  /-- A link with the directories above it. -/
  | link (path : Path) (target : String)
  /-- What is at a path is removed, if something is there. -/
  | remove (path : Path)
  | touch (path : Path) (ns : Int)
  /-- Package directories below a directory of packages. -/
  | install (packages : Path) (names : List String)

/-- A step on a tree. -/
abbrev Changing := ExceptT Failure (StateM Tree)

namespace Change

/-- A step that the tree may refuse, with the files that the refusal names. -/
def step (files : List String) (f : Tree → Except Errno Tree) : Changing Unit := do
  if files.any fun s => s.toList.contains '\x00' then throw .nulInPath
  match f (← get) with
  | .ok t => set t
  | .error e => throw (.os e files)

/-- Makes a directory and those above it; it may be there already. -/
def makeDirs (cwd : Location) (p : Path) : Changing Unit := do
  if p.text.toList.contains '\x00' then throw .nulInPath
  let (t, refusal) := (← get).mkdirAll cwd p
  set t
  match refusal with
  | none => return
  | some (e, place) => throw (.os e [place.text])

/-- What there is of a path is removed. -/
def eraseIfThere (t : Tree) (cwd : Location) (p : Path) : Except Errno Tree :=
  match t.erase cwd p with
  | .error .noEntry => .ok t
  | r => r

def apply (cwd : Location) : Change → Changing Unit
  | write p text x ns => do
    makeDirs cwd p.parent
    step [p.text] (·.write cwd p text)
    step [p.text] (·.setExecutable cwd p x)
    if let some ns := ns then step [p.text] (·.touch cwd p ns)
  | mkdir p => makeDirs cwd p
  | link p target => do
    makeDirs cwd p.parent
    step [target, p.text] (·.symlink cwd p target)
  | remove p => step [p.text] (eraseIfThere · cwd p)
  | touch p ns => step [p.text] (·.touch cwd p ns)
  | install packages names => names.forM fun name => makeDirs cwd (packages.join (Path.ofString name))

/-- One change after the other, up to the first that is refused. -/
def applyAll (cwd : Location) (cs : List Change) : Changing Unit :=
  cs.forM (apply cwd)

end Change

end Bundler
