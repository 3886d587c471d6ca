import Bundler.Json.Bounds
import Bundler.Text.Quoted

/-!
# Values in messages

`Json.inspect` shows a value as messages show it: strings quoted, `None`, `True` and `False` for the
constants. `Json.display` differs only for a string, which it gives as it is. A value of any size is shown by
`Json.inspectWithin` and `Json.displayWithin`, which fail by what is too much of it.
-/

namespace Bundler.Json

mutual

def inspect : Json → String
  | .null => "None"
  | .bool true => "True"
  | .bool false => "False"
  | .num n => n.text
  | .str s => Text.quoted s
  | .arr xs => "[" ++ ", ".intercalate (inspectItems xs) ++ "]"
  | .obj fs => "\x7b" ++ ", ".intercalate (inspectFields fs) ++ "\x7d"

def inspectItems : List Json → List String
  | [] => []
  | v :: vs => inspect v :: inspectItems vs

def inspectFields : List (String × Json) → List String
  | [] => []
  | (k, v) :: fs => (Text.quoted k ++ ": " ++ inspect v) :: inspectFields fs

end

def display : Json → String
  | .str s => s
  | v => v.inspect

def inspectWithin (b : Bounds) (v : Json) : Except Excess String :=
  converted .shown b v v.inspect

def displayWithin (b : Bounds) : Json → Except Excess String
  | .str s => .ok s
  | v => v.inspectWithin b

end Bundler.Json
