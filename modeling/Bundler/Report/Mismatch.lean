import Bundler.Text.Quoted

/-!
# Values of a wrong kind

A value that comes from outside can be of a kind that doesn't fit where it stands. `Mismatch` lists how; kinds
are given by their names.
-/

namespace Bundler

inductive Mismatch where
  /-- A list was expected. -/
  | notIterable (kind : String)
  /-- Something is looked up by a value that can't be a name. -/
  | notName (kind : String)
  /-- Something is looked for in a value that holds nothing. -/
  | notSearchable (kind : String)
  | notPath (kind : String)
  | notInteger (kind : String)
  /-- Two values that an operator doesn't combine. -/
  | notCombined (operator left right : String)
  /-- Two values that an operator doesn't compare. -/
  | notCompared (operator left right : String)
  /-- A setting that there isn't. -/
  | unknownSetting (name : String)
  | missingSetting (name : String)

def Mismatch.message : Mismatch → String
  | notIterable kind => Text.quoted kind ++ " object is not iterable"
  | notSearchable kind => "argument of type " ++ Text.quoted kind ++ " is not iterable"
  | notName kind => "unhashable type: " ++ Text.quoted kind
  | notPath kind => "expected str, bytes or os.PathLike object, not " ++ kind
  | notInteger kind => Text.quoted kind ++ " object cannot be interpreted as an integer"
  | notCombined operator left right =>
    "unsupported operand type(s) for " ++ operator ++ ": " ++ Text.quoted left ++ " and " ++ Text.quoted right
  | notCompared operator left right =>
    Text.quoted operator ++ " not supported between instances of " ++ Text.quoted left ++ " and " ++
      Text.quoted right
  | unknownSetting name => "BundlerConfig.__init__() got an unexpected keyword argument '" ++ name ++ "'"
  | missingSetting name => "BundlerConfig.__init__() missing 1 required positional argument: '" ++ name ++ "'"

end Bundler
