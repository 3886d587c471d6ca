/-!
# The three passes

Three passes run a program on node: `discover` finds the packages that a component imports, `finalize`
compiles the script, and `styles` makes the style sheet.
-/

namespace Bundler

inductive Pass where
  | discover
  | finalize
  | styles
  deriving DecidableEq, Repr

namespace Pass

def name : Pass → String
  | discover => "discover"
  | finalize => "finalize"
  | styles => "styles"

def all : List Pass :=
  [discover, finalize, styles]

def names : List String :=
  all.map name

def ofName? (s : String) : Option Pass :=
  all.find? fun p => p.name == s

theorem ofName?_name (p : Pass) : ofName? p.name = some p := by
  cases p <;> decide

end Pass

end Bundler
