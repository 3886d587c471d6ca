import Bundler.Json.Basic

/-!
# Quantities

A quantity is a number where a truth value may stand as well: it counts as one or zero and is shown the way
it was written.
-/

namespace Bundler

inductive Quantity where
  | number (n : Number)
  | flag (b : Bool)

namespace Quantity

/-- The number that a quantity counts as. -/
def value : Quantity → Number
  | number n => n
  | flag b => .int (if b then 1 else 0)

def toJson : Quantity → Json
  | number n => .num n
  | flag b => .bool b

/-- No other value is a quantity. -/
def ofJson? : Json → Option Quantity
  | .num n => some (number n)
  | .bool b => some (flag b)
  | _ => none

theorem ofJson?_toJson (q : Quantity) : ofJson? q.toJson = some q := by
  cases q <;> rfl

end Quantity

end Bundler
