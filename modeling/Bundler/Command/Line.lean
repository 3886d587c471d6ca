import Bundler.Text.Numeral
import Bundler.Text.Search

/-!
# Command lines

There are two programs: one with commands to bundle, to watch and to look into the cache, and one that only
bundles. `Command.read` reads the arguments of either; they are a command, a call for help, or wrong. Options
may stand before and after arguments until `--` ends them; before the name of a command they may only stand
in front.
-/

namespace Bundler

/-- What a user asks for. -/
inductive Command where
  | bundle (entry : String) (styles framed : Bool)
  | watch (entry : String) (styles : Bool) (debounce : Int) (pollInterval : Float)
  | cachePath
  | cacheStatus
  | version

/-- Arguments that aren't a command. -/
inductive Usage where
  | help
  | wrong
  deriving DecidableEq, Repr

namespace Command

inductive Switch where
  | help
  | verbose
  | noStyles
  | framed
  | debounce
  | pollInterval
  deriving DecidableEq, Repr

/-- The switch takes a value. -/
def Switch.takesValue : Switch → Bool
  | debounce | pollInterval => true
  | _ => false

/-- What arguments may look like. -/
structure Shape where
  longs : List (String × Switch)
  shorts : List (Char × Switch) := []
  /-- Options may stand behind arguments. -/
  interspersed : Bool := true

/-- Arguments taken apart, in the order in which they stand. -/
structure Parsed where
  switches : List (Switch × String) := []
  arguments : List String := []

namespace Parsed

def has (p : Parsed) (s : Switch) : Bool :=
  p.switches.any (·.1 == s)

/-- The last value of a switch. -/
def value? (p : Parsed) (s : Switch) : Option String :=
  (p.switches.reverse.find? (·.1 == s)).map (·.2)

def withSwitches (ss : List (Switch × String)) (p : Parsed) : Parsed :=
  { p with switches := ss ++ p.switches }

def withArgument (a : String) (p : Parsed) : Parsed :=
  { p with arguments := a :: p.arguments }

end Parsed

/-- What one argument is that begins with a dash. -/
inductive Piece where
  /-- Complete as it stands. -/
  | complete (switches : List (Switch × String))
  /-- The next argument is its value. -/
  | needsValue (s : Switch)
  | unknown

/-- A name and the value behind the first `=`. -/
def splitValue (a : String) : String × Option String :=
  let cs := a.toList
  match cs.dropWhile (· != '=') with
  | [] => (a, none)
  | _ :: value => (String.ofList (cs.takeWhile (· != '=')), some (String.ofList value))

/-- Letters that are each a switch without a value. -/
def cluster (sh : Shape) (letters : List Char) : Piece :=
  match letters.mapM fun c => sh.shorts.lookup c with
  | some ss => .complete (ss.map (·, ""))
  | none => .unknown

def classify (sh : Shape) (a : String) : Piece :=
  let (name, value) := splitValue a
  match sh.longs.lookup name, value with
  | some s, some v => if s.takesValue then .complete [(s, v)] else .unknown
  | some s, none => if s.takesValue then .needsValue s else .complete [(s, "")]
  | none, _ => if "--".toList.isPrefixOf a.toList then .unknown else cluster sh (a.toList.drop 1)

def looksLikeOption (a : String) : Bool :=
  "-".toList.isPrefixOf a.toList && a != "-"

/-- Takes arguments apart; none if an option is unknown or lacks its value. -/
def parse (sh : Shape) : List String → Option Parsed
  | [] => some {}
  | a :: rest =>
    if a = "--" then some { arguments := rest }
    else if looksLikeOption a then
      match classify sh a with
      | .complete ss => (parse sh rest).map (·.withSwitches ss)
      | .needsValue s =>
        match rest with
        | [] => none
        | v :: rest => (parse sh rest).map (·.withSwitches [(s, v)])
      | .unknown => none
    else if sh.interspersed then (parse sh rest).map (·.withArgument a)
    else some { arguments := a :: rest }

/-- Arguments that parse and don't call for help. -/
def parsed (sh : Shape) (args : List String) : Except Usage Parsed :=
  match parse sh args with
  | none => .error .wrong
  | some p => if p.has .help then .error .help else .ok p

def helpOnly : List (String × Switch) :=
  [("--help", .help)]

def bundleOptions : List (String × Switch) :=
  [("--no-styles", .noStyles), ("--json", .framed)] ++ helpOnly

def watchOptions : List (String × Switch) :=
  [("--no-styles", .noStyles), ("--debounce-ms", .debounce), ("--poll-interval", .pollInterval)] ++ helpOnly

/-- The options of a program as a whole. -/
def generalOptions : Shape :=
  { longs := ("--verbose", .verbose) :: helpOnly, shorts := [('v', .verbose)], interspersed := false }

/-- A value that is read and accepted, or the default without one. -/
def valueOf (p : Parsed) (s : Switch) (dflt : α) (read : String → Option α) (accept : α → Bool) :
    Except Usage α :=
  match p.value? s with
  | none => .ok dflt
  | some text =>
    match read text with
    | some a => if accept a then .ok a else .error .wrong
    | none => .error .wrong

def readBundle (p : Parsed) : Except Usage Command :=
  match p.arguments with
  | [entry] => .ok (.bundle entry (!p.has .noStyles) (p.has .framed))
  | _ => .error .wrong

/-- The digits of a whole number are limited. -/
def readWatch (digits : Option Nat) (p : Parsed) : Except Usage Command := do
  let debounce ← valueOf p .debounce 300 (Text.Numeral.int? digits) fun n => 0 ≤ n
  let pollInterval ← valueOf p .pollInterval 0.25 Text.Numeral.float? fun x => !(x < 0.01)
  match p.arguments with
  | [entry] => .ok (.watch entry (!p.has .noStyles) debounce pollInterval)
  | _ => .error .wrong

/-- A command without arguments. -/
def readBare (c : Command) (args : List String) : Except Usage Command := do
  let p ← parsed { longs := helpOnly } args
  if p.arguments.isEmpty then .ok c else .error .wrong

/-- The arguments of a group of commands: options of the group, the name of a command, and what belongs to
that. A name that isn't one of a command counts for what it holds of the group's own options. -/
def readGroup (sh : Shape) (args : List String)
    (command : String → Option (List String → Except Usage Command)) : Except Usage (Command × Bool) := do
  let p ← parsed sh args
  match p.arguments with
  | [] => .error .wrong
  | name :: rest =>
    match command name with
    | some read => return (← read rest, p.has .verbose)
    | none =>
      let _ ← parsed sh (name :: rest)
      .error .wrong

def readCache (args : List String) : Except Usage Command :=
  return (← readGroup { longs := helpOnly, interspersed := false } args fun
    | "path" => some (readBare .cachePath)
    | "status" => some (readBare .cacheStatus)
    | _ => none).1

/-- The two programs. -/
inductive Program where
  | full
  | bundleOnly
  deriving DecidableEq, Repr

/-- The command that arguments ask a program for, and whether the log is to be verbose. -/
def read (digits : Option Nat) (program : Program) (args : List String) : Except Usage (Command × Bool) :=
  match program with
  | .bundleOnly => do
    let p ← parsed { generalOptions with
      longs := bundleOptions ++ generalOptions.longs
      interspersed := true } args
    return (← readBundle p, p.has .verbose)
  | .full =>
    readGroup generalOptions args fun
      | "bundle" => some fun args => do readBundle (← parsed { longs := bundleOptions } args)
      | "watch" => some fun args => do readWatch digits (← parsed { longs := watchOptions } args)
      | "cache" => some readCache
      | "version" => some (readBare .version)
      | _ => none

end Command

end Bundler
