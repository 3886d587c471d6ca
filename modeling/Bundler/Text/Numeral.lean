import Bundler.Decimal.Layout
import Bundler.Text.Blank
import Bundler.Text.Digit

/-!
# Numerals

Numbers as a user may write them: with white space around, a sign, digits of any script, and single underscores
between digits. `Numeral.int?` reads an integer, `Numeral.float?` a double, for which a point, an exponent
and the words for infinity and NaN may stand too.
-/

namespace Bundler.Text.Numeral

/-- What may stand around a number: white space, but no information separator. -/
def isSpace (c : Char) : Bool :=
  isBlank c && !(0x1c ≤ c.toNat && c.toNat ≤ 0x1f)

/-- The text without the white space at its two ends. -/
def strip (cs : List Char) : List Char :=
  ((cs.dropWhile isSpace).reverse.dropWhile isSpace).reverse

/-- A sign, if there is one, and the rest. -/
def sign : List Char → Bool × List Char
  | '-' :: cs => (true, cs)
  | '+' :: cs => (false, cs)
  | cs => (false, cs)

/-- The digits at the front, by value; an underscore may stand between two of them. -/
def digits : List Char → List Nat × List Char
  | [] => ([], [])
  | c :: cs =>
    match digitValue? c with
    | none => ([], c :: cs)
    | some d =>
      match cs with
      | '_' :: e :: rest =>
        if (digitValue? e).isSome then
          let r := digits (e :: rest)
          (d :: r.1, r.2)
        else ([d], '_' :: e :: rest)
      | cs =>
        let r := digits cs
        (d :: r.1, r.2)

/-- An integer, of no more digits than the limit; zeros in front are counted too. -/
def int? (limit : Option Nat) (s : String) : Option Int :=
  let (negative, cs) := sign (strip s.toList)
  match digits cs with
  | (d :: ds, []) =>
    let n : Int := ofDigits (d :: ds)
    if limit.any (· < (d :: ds).length) then none else some (if negative then -n else n)
  | _ => none

/-- The words for infinity and NaN, in small letters. -/
def words : List (String × Float) :=
  [("inf", 1.0 / 0.0), ("infinity", 1.0 / 0.0), ("nan", 0.0 / 0.0)]

/-- A point and the digits behind it. -/
def fraction : List Char → List Nat × List Char
  | '.' :: cs => digits cs
  | cs => ([], cs)

/-- A mark, a sign or none, and digits; the empty text is the exponent zero. -/
def exponent? : List Char → Option Int
  | [] => some 0
  | e :: cs =>
    if e = 'e' ∨ e = 'E' then
      let (negative, cs) := sign cs
      match digits cs with
      | (d :: ds, []) =>
        let n : Int := ofDigits (d :: ds)
        some (if negative then -n else n)
      | _ => none
    else none

def float? (s : String) : Option Float :=
  let (negative, cs) := sign (strip s.toList)
  match words.lookup (String.ofList (cs.map Char.toLower)) with
  | some x => some (if negative then -x else x)
  | none =>
    let (whole, cs) := digits cs
    let (part, cs) := fraction cs
    if whole.isEmpty && part.isEmpty then none
    else (exponent? cs).map fun e =>
      Decimal.toFloat negative ⟨ofDigits (whole ++ part), e - part.length⟩

end Bundler.Text.Numeral
