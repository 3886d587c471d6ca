import Bundler.Json.Basic

/-!
# The five types of failure

Every failure is reported as one of five types. `ErrorType.name` is what stands in a report, `ofName?`
reads it, and `rank` orders the types by how much they say: `unknown` least, `malformed` most.
-/

namespace Bundler

inductive ErrorType where
  /-- The component doesn't parse. -/
  | malformed
  /-- An import can't be resolved, or a package isn't in the registry. -/
  | resolve
  /-- The registry can't be reached. -/
  | network
  /-- The compiler reports errors of another kind. -/
  | build
  | unknown
  deriving DecidableEq, Repr

namespace ErrorType

def name : ErrorType → String
  | malformed => "syntax"
  | resolve => "resolve"
  | network => "network"
  | build => "build"
  | unknown => "unknown"

def all : List ErrorType :=
  [malformed, resolve, network, build, unknown]

theorem mem_all (t : ErrorType) : t ∈ all := by
  cases t <;> simp [all]

def names : List String :=
  all.map name

def ofName? (s : String) : Option ErrorType :=
  all.find? fun t => t.name == s

/-- A type is given by its name, and nothing but a string is a name. -/
def ofJson? : Json → Option ErrorType
  | .str s => ofName? s
  | _ => none

theorem ofName?_name (t : ErrorType) : ofName? t.name = some t := by
  cases t <;> decide

/-- How much a type says about the failure. -/
def rank : ErrorType → Nat
  | malformed => 4
  | resolve => 3
  | network => 2
  | build => 1
  | unknown => 0

end ErrorType

end Bundler
