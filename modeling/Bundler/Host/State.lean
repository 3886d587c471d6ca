import Bundler.Disk.Locking
import Bundler.Host.Call
import Bundler.Json.Writer
import Bundler.Text.Ansi
import Bundler.Text.Line

/-!
# The host

A host is everything outside of the bundler that it reads or changes: the directory tree, the environment,
the programs it calls, the clock, and what it writes; and with it the libraries that take locks and write to terminals,
and the limits of the interpreter. What a called program will do is written down beforehand, in a queue for each kind of
program; what others will do to the tree is written down with the moment at which they do it. `Action` is a step of the
bundler on a host. An action that fails keeps the changes that it made before.
-/

namespace Bundler

inductive Level where
  | debug
  | info
  | warning
  | error
  deriving DecidableEq, Repr

def Level.name : Level → String
  | debug => "DEBUG"
  | info => "INFO"
  | warning => "WARNING"
  | error => "ERROR"

/-- A line of the log, with the part of the bundler that wrote it. -/
structure LogLine where
  level : Level
  source : String
  text : String
  deriving Repr

/-- What the programs called will do: the next call of a kind takes the first outcome of its queue, and with
an empty queue all goes well. -/
structure Outcomes where
  npm : List Outcome := []
  discover : List Outcome := []
  finalize : List Outcome := []
  styles : List Outcome := []

/-- A clock that stands still while the bundler works. -/
structure Clock where
  now : Number := .real 100.0
  /-- How often the bundler has slept. -/
  sleeps : Nat := 0
  /-- What others change during a sleep, by its count. -/
  changes : List (Nat × List Change) := []
  /-- The sleep that the user interrupts. -/
  stopAfter : Nat := 60

/-- Where the news of a run go. -/
inductive News where
  | dropped
  | kept
  /-- A line of JSON for each. -/
  | printed
  deriving DecidableEq, Repr

structure Host where
  tree : Tree := {}
  cwd : Location := []
  env : Environment := []
  /-- Where node is commonly found. -/
  candidates : List String := []
  outcomes : Outcomes := {}
  /-- What others change before the lock is granted next. -/
  beforeLock : List Change := []
  clock : Clock := {}
  limits : Limits := .standard
  locking : Locking := .standard
  stripping : Text.Ansi.Stripping := .standard
  news : News := .dropped
  calls : List Call := []
  log : List LogLine := []
  events : List String := []
  stdout : String := ""

/-- The user's home directory. -/
def Host.home (h : Host) : String :=
  (h.env.get? "HOME").getD ""

/-- A step on a host. -/
abbrev Action := ExceptT Failure (StateM Host)

/-- A step on a host that also keeps something of its own. -/
abbrev ActionWith (σ : Type) := ExceptT Failure (StateM (σ × Host))

namespace ActionWith

/-- A step that leaves what is kept as it is. -/
def ofAction (a : Action α) : ActionWith σ α :=
  ExceptT.mk fun s =>
    let (r, h) := a.run s.2
    (r, (s.1, h))

instance : MonadLift Action (ActionWith σ) where
  monadLift := ofAction

/-- Changes what is kept. -/
def update (f : σ → σ) : ActionWith σ Unit :=
  ExceptT.mk fun s => (.ok (), (f s.1, s.2))

/-- What is kept. -/
def kept : ActionWith σ σ :=
  ExceptT.mk fun s => (.ok s.1, s)

/-- Begins with something kept, and gives it back unless the step fails. -/
def toAction (a : ActionWith σ α) (s : σ) : Action (α × σ) :=
  ExceptT.mk fun h =>
    let (r, (s, h)) := a.run (s, h)
    (r.map (·, s), h)

end ActionWith

namespace Action

def write (level : Level) (source text : String) : Action Unit :=
  modify fun h => { h with log := h.log ++ [⟨level, source, text⟩] }

/-- What a step comes to, as a value. -/
def attempt (a : Action α) : Action (Except Failure α) :=
  ExceptT.mk fun h =>
    let (r, h) := a.run h
    (.ok r, h)

/-- Writes to the standard output, which is no terminal. -/
def echo (s : String) : Action Unit :=
  modify fun h => { h with stdout := h.stdout ++ String.ofList (h.stripping.strip s.toList) }

def echoLine (s : String) : Action Unit :=
  echo (s ++ "\n")

/-- A failure that the file system reports for a path. -/
def refused (e : Errno) (p : Path) : Failure :=
  .os e [p.text]

/-- Paths with a NUL never reach the file system. -/
def checked (p : Path) : Action Unit :=
  if p.text.toList.contains '\x00' then throw .nulInPath else pure ()

/-- Reads something of the tree through a path. -/
def observe (p : Path) (f : Tree → Location → Except Errno α) : Action α := do
  checked p
  let h ← get
  match f h.tree h.cwd with
  | .ok a => return a
  | .error e => throw (refused e p)

/-- Changes the tree through a path. -/
def change (p : Path) (f : Tree → Location → Except Errno Tree) : Action Unit := do
  let t ← observe p f
  modify fun h => { h with tree := t }

/-- Errors that mean that nothing is there. -/
def meansAbsent : Errno → Bool
  | .noEntry | .notDirectory | .linkLoop => true
  | _ => false

/-- The entry at the end of a path and of the links there, if there is one. -/
def entry? (p : Path) : Action (Option Entry) := do
  if p.text.toList.contains '\x00' then return none
  let h ← get
  match h.tree.stat h.cwd p with
  | .ok e => return some e
  | .error e => if meansAbsent e then return none else throw (refused e p)

def exists? (p : Path) : Action Bool :=
  return (← entry? p).isSome

def isDir (p : Path) : Action Bool := do
  match ← entry? p with
  | some (.dir _) => return true
  | _ => return false

def isFile (p : Path) : Action Bool := do
  match ← entry? p with
  | some (.file ..) => return true
  | _ => return false

/-- A step on the tree, from the working directory. -/
def changing (a : Location → Changing Unit) : Action Unit :=
  ExceptT.mk fun h =>
    let (r, t) := (a h.cwd).run h.tree
    (r, { h with tree := t })

/-- What others change. -/
def changeAll (cs : List Change) : Action Unit :=
  changing fun cwd => Change.applyAll cwd cs

/-- Makes a directory and those above it; it may be there already. -/
def makeDirs (p : Path) : Action Unit :=
  changing fun cwd => Change.makeDirs cwd p

def writeText (p : Path) (text : String) : Action Unit :=
  change p fun t cwd => t.write cwd p text

/-- The text of a file, every line ending read as LF. -/
def readText (p : Path) : Action String :=
  return String.ofList (Text.unixLines (← observe p fun t cwd => t.read cwd p).toList)

/-- The absolute path without links that a path means, of something that needn't exist. -/
def resolve (p : Path) : Action Path := do
  checked p
  let h ← get
  match h.tree.settle h.cwd p with
  | .ok q => return q
  | .error q => throw (.linkLoop q.text)

/-- A path with a first part `~` replaced by the user's home. -/
def expandHome (p : Path) : Action Path := do
  MonadExcept.ofExcept (p.expandHome (← get).home)

/-- When the entry at the end of a path changed; none if nothing is there. -/
def stamp? (p : Path) : Action (Option Stamp) := do
  checked p
  let h ← get
  match h.tree.stat h.cwd p with
  | .ok (.file _ _ s) | .ok (.dir s) => return some s
  | .ok (.link _) | .error .noEntry => return none
  | .error e => throw (refused e p)

/-- Lets time pass, and others work. -/
def sleep (seconds : Number) : Action Unit := do
  let some now := (← get).clock.now.add? seconds | throw .tooLargeForDouble
  modify fun h => { h with clock := { h.clock with now, sleeps := h.clock.sleeps + 1 } }
  let c := (← get).clock
  changeAll ((c.changes.filter (·.1 == c.sleeps)).flatMap (·.2))
  if c.stopAfter ≤ c.sleeps then throw .interrupted

def now : Action Number :=
  return (← get).clock.now

/-- How many sleeps there are up to the one that is interrupted, and one more. -/
def sleepsLeft : Action Nat := do
  let c := (← get).clock
  return c.stopAfter - c.sleeps + 1

/-- A piece of news of a run. -/
def announce (event : String) : Action Unit := do
  match (← get).news with
  | .dropped => return
  | .kept => modify fun h => { h with events := h.events ++ [event] }
  | .printed => echoLine (Json.obj [("event", .str event), ("payload", .null)]).write

end Action

end Bundler
