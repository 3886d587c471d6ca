import Bundler.Json.Basic

/-!
# How much can be converted

Values are read from texts and made into texts, and there are bounds to both: on the digits of a whole number, and
on how many values may stand one within the other, since each of them takes a level of the stack. The first bound is
one for the whole program, the second is another at every place, for it's what the callers have left of the stack.
`Json.excess?` is the first thing in a value that is too much.
-/

namespace Bundler.Json

/-- What may be converted at a place. -/
structure Bounds where
  /-- The digits of a whole number; without a number, as many as there are. -/
  digits : Option Nat
  /-- How many values may stand one within the other. -/
  levels : Nat
  deriving DecidableEq, Repr

/-- What is too much. -/
inductive Excess where
  /-- A whole number with more digits than the limit; when it's read they are counted. -/
  | digits (limit : Nat) (found : Option Nat)
  /-- The stack comes to its end; perhaps it's told what was being done. -/
  | levels (doing : Option String)
  deriving DecidableEq, Repr

namespace Excess

def label : Excess → String
  | digits .. => "ValueError"
  | levels _ => "RecursionError"

def message : Excess → String
  | digits limit found =>
    "Exceeds the limit (" ++ toString limit ++ " digits) for integer string conversion" ++
      (match found with
        | some n => ": value has " ++ toString n ++ " digits"
        | none => "") ++
      "; use sys.set_int_max_str_digits() to increase the limit"
  | levels doing =>
    "maximum recursion depth exceeded" ++
      match doing with
      | some doing => " while " ++ doing
      | none => ""

end Excess

/-- The limit that a number breaks. -/
def brokenBy? (digits : Option Nat) (n : Number) : Option Nat :=
  digits.filter (· < n.digits)

/-- How a value is made into a text. -/
inductive Way where
  | written
  | indented
  | shown
  deriving DecidableEq, Repr

namespace Way

/-- The levels that a value takes which holds no others. -/
def leaf : Way → Nat
  | shown => 1
  | _ => 0

def doing : Way → Option String
  | written => some "encoding a JSON object"
  | indented => none
  | shown => some "getting the repr of an object"

end Way

mutual

/-- What is too much of a value, in the order of its text, with the levels that are left. -/
def excess? (way : Way) (digits : Option Nat) (levels : Nat) : Json → Option Excess
  | .arr xs =>
    match levels with
    | 0 => some (.levels way.doing)
    | levels + 1 => excessOfItems? way digits levels xs
  | .obj fs =>
    match levels with
    | 0 => some (.levels way.doing)
    | levels + 1 => excessOfFields? way digits levels fs
  | .num n =>
    if levels < way.leaf then some (.levels way.doing)
    else (brokenBy? digits n).map (.digits · none)
  | _ => if levels < way.leaf then some (.levels way.doing) else none

def excessOfItems? (way : Way) (digits : Option Nat) (levels : Nat) : List Json → Option Excess
  | [] => none
  | v :: vs =>
    match excess? way digits levels v with
    | some e => some e
    | none => excessOfItems? way digits levels vs

def excessOfFields? (way : Way) (digits : Option Nat) (levels : Nat) : List (String × Json) → Option Excess
  | [] => none
  | f :: fs =>
    match excess? way digits levels f.2 with
    | some e => some e
    | none => excessOfFields? way digits levels fs

end

/-- The text that a value is made into, unless something of it is too much. -/
def converted (way : Way) (b : Bounds) (v : Json) (text : String) : Except Excess String :=
  match excess? way b.digits b.levels v with
  | none => .ok text
  | some e => .error e

end Bundler.Json
