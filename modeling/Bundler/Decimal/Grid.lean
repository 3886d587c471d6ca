/-!
# Decimals next to a double

A finite double is `mantissa * 2 ^ exponent`. `Binary.shortest` is the decimal with the fewest digits among
those that read back as the double, and of these the nearest to it; `Binary.rounded n` is the nearest
decimal of `n` digits. Both go to the even last digit on an exact tie, and both only compare integers.
-/

namespace Bundler

/-- The number `digits * 10 ^ exponent`. -/
structure Decimal where
  digits : Nat
  exponent : Int
  deriving Repr, DecidableEq

/-- The number `mantissa * 2 ^ exponent`. -/
structure Binary where
  mantissa : Nat
  exponent : Int
  deriving Repr, DecidableEq

namespace Binary

/-- The magnitude of a finite double, from its bits. -/
def ofBits (bits : Nat) : Binary :=
  let e : Nat := bits / Nat.pow 2 52 % Nat.pow 2 11
  let f : Nat := bits % Nat.pow 2 52
  if e = 0 then ⟨f, -1074⟩ else ⟨f + Nat.pow 2 52, (e : Int) - 1075⟩

/-- A point `c` of the grid of multiples of `10 ^ t` lies at `c * den` on the scale on which the double's
quarter units lie at multiples of `num`. -/
structure Scale where
  num : Nat
  den : Nat

def scale (b : Binary) (t : Int) : Scale where
  num := Nat.pow 2 (b.exponent - 2).toNat * Nat.pow 10 (-t).toNat
  den := Nat.pow 2 (2 - b.exponent).toNat * Nat.pow 10 t.toNat

/-- The quarter units from the double down to the middle between it and its lower neighbour: one below
a power of two, where the neighbours are closer, and otherwise two. -/
def gapBelow (b : Binary) : Nat :=
  if b.mantissa = Nat.pow 2 52 ∧ b.exponent ≠ -1074 then 1 else 2

/-- The grid point `c` reads back as the double: it lies between the two middles, and on one of them
only if the mantissa is even. -/
def holds (b : Binary) (s : Scale) (c : Nat) : Bool :=
  let low := (4 * b.mantissa - b.gapBelow) * s.num
  let high := (4 * b.mantissa + 2) * s.num
  if b.mantissa % 2 = 0 then low ≤ c * s.den && c * s.den ≤ high else low < c * s.den && c * s.den < high

/-- The greatest grid point that isn't above the double. -/
def below (b : Binary) (s : Scale) : Nat :=
  4 * b.mantissa * s.num / s.den

/-- The nearer of the two neighbours on the grid. -/
def nearest (b : Binary) (s : Scale) : Nat :=
  let d := b.below s
  let twice := 8 * b.mantissa * s.num
  if twice < (2 * d + 1) * s.den then d
  else if (2 * d + 1) * s.den < twice then d + 1
  else if d % 2 = 0 then d else d + 1

/-- The neighbour on the grid that reads back as the double, the nearer if both do. -/
def hit? (b : Binary) (s : Scale) : Option Nat :=
  let d := b.below s
  match b.holds s d, b.holds s (d + 1) with
  | true, true => some (b.nearest s)
  | true, false => some d
  | false, true => some (d + 1)
  | false, false => none

/-- How often `num` has to be multiplied by ten to reach `den`. -/
def tensTo : Nat → Nat → Nat → Nat
  | 0, _, _ => 0
  | fuel + 1, num, den => if den ≤ num then 0 else tensTo fuel (10 * num) den + 1

/-- How often `n` can be divided by ten before it is less than ten. -/
def tensIn : Nat → Nat → Nat
  | 0, _ => 0
  | fuel + 1, n => if n < 10 then 0 else tensIn fuel (n / 10) + 1

/-- The exponent of the double's first decimal digit; a double has fewer than 400 digits on either side
of the point before its first. -/
def leading (b : Binary) : Int :=
  let s := b.scale 0
  let num := 4 * b.mantissa * s.num
  if s.den ≤ num then tensIn 400 (num / s.den) else -(tensTo 400 num s.den : Int)

/-- The first count of digits, from `n` on, whose grid has a hit. -/
def shortestFrom (b : Binary) (k : Int) : Nat → Nat → Decimal
  | 0, n => let t := k - n + 1; ⟨b.nearest (b.scale t), t⟩
  | fuel + 1, n =>
    let t := k - n + 1
    match b.hit? (b.scale t) with
    | some d => ⟨d, t⟩
    | none => shortestFrom b k fuel (n + 1)

/-- Seventeen digits always suffice. -/
def shortest (b : Binary) : Decimal :=
  shortestFrom b b.leading 16 1

/-- The nearest decimal of `n` digits. -/
def rounded (n : Nat) (b : Binary) : Decimal :=
  let t := b.leading - n + 1
  ⟨b.nearest (b.scale t), t⟩

end Binary

end Bundler
