import Bundler.Decimal.Grid

/-!
# Doubles as text

`Layout` holds the decisions of a number format; `Layout.write` writes a double with it. `plain` is the
format of numbers in documents and messages, `brief` that of a duration in a message. `Decimal.toFloat` is
the way back.
-/

namespace Bundler

/-- The double nearest to a decimal. Outside of `1e-400` to `1e400` it is zero or infinite. -/
def Decimal.toFloat (negative : Bool) (d : Decimal) : Float :=
  let size : Int := (toString d.digits).length + d.exponent
  let x : Float :=
    if d.digits = 0 ∨ size < -400 then 0.0
    else if 400 < size then 1.0 / 0.0
    else Float.ofScientific d.digits (d.exponent < 0) d.exponent.natAbs
  if negative then -x else x

/-- How a double is written: positionally from `1e-4` up to `10 ^ positionalBelow`, and otherwise with an
exponent of at least two digits. -/
structure Layout where
  /-- The digits that stand for the double. -/
  pick : Binary → Decimal
  positionalBelow : Int
  /-- A whole number written positionally ends in `.0`. -/
  wholePoint : Bool
  infinity : String := "inf"
  nan : String := "nan"

namespace Layout

/-- The fewest digits that read back, positional below `1e16`. -/
def plain : Layout where
  pick := Binary.shortest
  positionalBelow := 16
  wholePoint := true

/-- Six digits, positional below `1e6`. -/
def brief : Layout where
  pick := Binary.rounded 6
  positionalBelow := 6
  wholePoint := false

/-- The digits without the zeros at their end. -/
def significant (n : Nat) : List Char :=
  ((toString n).toList.reverse.dropWhile (· == '0')).reverse

def zeros (n : Nat) : List Char :=
  List.replicate n '0'

/-- Mark, sign and at least two digits. -/
def exponentPart (x : Int) : List Char :=
  let ds := (toString x.natAbs).toList
  'e' :: (if x < 0 then '-' else '+') :: (if ds.length < 2 then '0' :: ds else ds)

/-- A positive decimal. -/
def writeDecimal (l : Layout) (d : Decimal) : List Char :=
  let ds := significant d.digits
  let x := d.exponent + (toString d.digits).length - 1
  if -4 ≤ x ∧ x < l.positionalBelow then
    if x < 0 then '0' :: '.' :: zeros (-x - 1).toNat ++ ds
    else
      let whole := ds.take (x + 1).toNat ++ zeros ((x + 1).toNat - ds.length)
      match ds.drop (x + 1).toNat with
      | [] => if l.wholePoint then whole ++ ['.', '0'] else whole
      | part => whole ++ '.' :: part
  else
    match ds with
    | [] => []
    | [c] => c :: exponentPart x
    | c :: cs => c :: '.' :: cs ++ exponentPart x

def write (l : Layout) (v : Float) : String :=
  if v.isNaN then l.nan
  else
    let sign := if v.toBits.toNat / Nat.pow 2 63 = 1 then "-" else ""
    if v.isInf then sign ++ l.infinity
    else
      let b := Binary.ofBits v.toBits.toNat
      if b.mantissa = 0 then sign ++ (if l.wholePoint then "0.0" else "0")
      else sign ++ String.ofList (l.writeDecimal (l.pick b))

end Layout

end Bundler
