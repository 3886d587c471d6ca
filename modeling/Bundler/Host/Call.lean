import Bundler.Disk.Change
import Bundler.Host.Limits

/-!
# Calls of other programs

A call names a program with its arguments, and says where, with what input, in which environment and for how
long it runs. `Execution` is what is left when it has ended by itself. `Outcome` is what a call comes to: it
may fail to start or be stopped, and until it ends it may change the tree.
-/

namespace Bundler

/-- Names and values. -/
abbrev Environment := List (String × String)

namespace Environment

def get? (e : Environment) (name : String) : Option String :=
  e.lookup name

/-- Sets a variable: in place if it's there, at the end if it's new. -/
def set (e : Environment) (name value : String) : Environment :=
  match e with
  | [] => [(name, value)]
  | (n, v) :: e => if n = name then (name, value) :: e else (n, v) :: set e name value

theorem get?_set_self (name value : String) : ∀ e : Environment, (e.set name value).get? name = some value
  | [] => by simp [set, get?]
  | (n, v) :: e => by
    have ih := get?_set_self name value e
    by_cases h : n = name
    · simp [set, get?, h]
    · have : (name == n) = false := by simpa using fun h' => h h'.symm
      simpa [set, get?, h, this, List.lookup_cons] using ih

theorem get?_set_of_ne {name other : String} (h : other ≠ name) (value : String) :
    ∀ e : Environment, (e.set name value).get? other = e.get? other
  | [] => by simp [set, get?, List.lookup_cons, beq_eq_false_iff_ne.2 h]
  | (n, v) :: e => by
    have ih := get?_set_of_ne h value e
    by_cases hn : n = name
    · subst hn
      simp [set, get?, List.lookup_cons, beq_eq_false_iff_ne.2 h]
    · simp only [get?] at ih
      simp [set, get?, hn, List.lookup_cons, ih]

/-- The value of a variable if it says something. -/
def nonempty? (e : Environment) (name : String) : Option String :=
  (e.get? name).filter (!·.isEmpty)

end Environment

/-- What a call is for. -/
inductive Call.Kind where
  /-- The package manager installs packages. -/
  | npm
  | pass (p : Pass)
  deriving DecidableEq, Repr

def Call.Kind.name : Call.Kind → String
  | npm => "npm"
  | pass p => p.name

/-- Why a program didn't come to its end. -/
inductive Stop where
  | timeout
  /-- There is no such program. -/
  | missing
  | denied
  | noMemory
  deriving DecidableEq, Repr

/-- Which of the packages asked for a package manager installs. -/
inductive Installs where
  /-- All of them if it succeeds, otherwise none. -/
  | bySuccess
  | all
  | none
  | these (names : List String)

/-- What a call comes to. -/
inductive Outcome where
  | stops (why : Stop)
  /-- It ends; `none` for its output stands for what such a program prints when all goes well. -/
  | ends (status : Int) (stdout : Option String) (stderr : String) (changes : List Change) (installs : Installs)

namespace Outcome

/-- All goes well. -/
def fine : Outcome :=
  .ends 0 none "" [] .bySuccess

end Outcome

/-- The moment at which a call is made: the tree, the directory in which the bundler works, its limits, and what
will come of the call. -/
structure Moment where
  tree : Tree := {}
  cwd : Location := []
  limits : Limits := .standard
  outcome : Outcome := .fine

structure Call where
  kind : Call.Kind
  argv : List String
  cwd : Option Path := none
  input : Option String := none
  /-- The environment of the call; without one it has the host's. -/
  env : Option Environment := none
  timeout : Option Quantity := none
  /-- When it was made; what stands here before that says nothing. -/
  moment : Moment := {}

/-- A program that has ended. -/
structure Execution where
  argv : List String
  /-- Zero for success; the negative of a signal that ended it. The system gives it few digits. -/
  status : Int
  stdout : String := ""
  stderr : String := ""

namespace Execution

def succeeded (e : Execution) : Bool :=
  e.status == 0

/-- What it printed, an empty stream left out. -/
def printed (e : Execution) : String :=
  "\n".intercalate ([e.stdout, e.stderr].filter (!·.isEmpty))

end Execution

namespace Call

/-- The failure of a call that the system refuses, with the files that it names: what is missing or denied
counts as a fault of the toolchain. -/
def refused (c : Call) (e : Errno) (files : List String) : Failure :=
  let f := Failure.os e files
  if e = .noEntry || e = .denied then
    .bundle { kind := .toolchain, message := "Failed to start " ++ c.argv.headD "" ++ ": " ++ f.message }
  else f

/-- The failure of a call that doesn't come to its end. -/
def failure (c : Call) : Stop → Failure
  | .timeout => .expired c.argv (c.timeout.getD (.number (.int 0)))
  | .missing => c.refused .noEntry [c.argv.headD ""]
  | .denied => c.refused .denied [c.argv.headD ""]
  | .noMemory => c.refused .noMemory []

end Call

end Bundler
