import Bundler.Decimal.Layout

/-!
# JSON values

A number keeps whether it was written as an integer or not; an object keeps its fields in the order in
which they were first given. `Json.typeName` is the word that messages use for a value's kind, `truthy`
says which values count as an answer.
-/

namespace Bundler

inductive Number where
  | int (n : Int)
  | real (x : Float)

inductive Json where
  | null
  | bool (b : Bool)
  | num (n : Number)
  | str (s : String)
  | arr (items : List Json)
  | obj (fields : List (String × Json))

namespace Number

def text : Number → String
  | int n => toString n
  | real x => Layout.plain.write x

/-- The digits of a whole number, without its sign. -/
def digits : Number → Nat
  | int n => (Nat.toDigits 10 n.natAbs).length
  | real _ => 0

def isZero : Number → Bool
  | int n => n == 0
  | real x => x == 0.0

/-- At most zero; a NaN is not. -/
def notPositive : Number → Bool
  | int n => n ≤ 0
  | real x => x ≤ 0.0

/-- The nearest double; none if an integer is too large for one. -/
def toFloat? : Number → Option Float
  | int n =>
    let x := Float.ofInt n
    if x.isInf then none else some x
  | real x => some x

/-- Exact on integers, and otherwise in doubles. -/
def add? : Number → Number → Option Number
  | int a, int b => some (int (a + b))
  | a, b => do return real ((← a.toFloat?) + (← b.toFloat?))

/-- Exact on integers, and otherwise in doubles. -/
def sub? : Number → Number → Option Number
  | int a, int b => some (int (a - b))
  | a, b => do return real ((← a.toFloat?) - (← b.toFloat?))

/-- A finite double as a quotient. -/
def quotient (x : Float) : Int × Nat :=
  let b := Binary.ofBits x.toBits.toNat
  let n : Int := b.mantissa * Int.pow 2 b.exponent.toNat
  (if x < 0.0 then -n else n, Nat.pow 2 (-b.exponent).toNat)

/-- `a ≥ b`, compared exactly. -/
def atLeast : Number → Number → Bool
  | int a, int b => b ≤ a
  | real a, real b => b ≤ a
  | real a, int b =>
    if a.isNaN then false
    else if a.isInf then 0.0 < a
    else b * (quotient a).2 ≤ (quotient a).1
  | int a, real b =>
    if b.isNaN then false
    else if b.isInf then b < 0.0
    else (quotient b).1 ≤ a * (quotient b).2

/-- `a > b`, compared exactly. -/
def exceeds (a b : Number) : Bool :=
  a.atLeast b && !b.atLeast a

end Number

namespace Json

def int (n : Int) : Json :=
  .num (.int n)

def typeName : Json → String
  | null => "NoneType"
  | bool _ => "bool"
  | num (.int _) => "int"
  | num (.real _) => "float"
  | str _ => "str"
  | arr _ => "list"
  | obj _ => "dict"

/-- Everything but `null`, `false`, zero and what is empty. -/
def truthy : Json → Bool
  | null => false
  | bool b => b
  | num n => !n.isZero
  | str s => !s.isEmpty
  | arr xs => !xs.isEmpty
  | obj fs => !fs.isEmpty

def isNull : Json → Bool
  | null => true
  | _ => false

def str? : Json → Option String
  | str s => some s
  | _ => none

/-- Sets a field: in place if the key is there, at the end if it is new. -/
def putField (k : String) (v : Json) : List (String × Json) → List (String × Json)
  | [] => [(k, v)]
  | (k', v') :: fs => if k' = k then (k, v) :: fs else (k', v') :: putField k v fs

/-- The fields after setting each pair in turn. -/
def ofPairs (ps : List (String × Json)) : List (String × Json) :=
  ps.foldl (fun fs p => putField p.1 p.2 fs) []

/-- A field of an object. -/
def field? (k : String) : Json → Option Json
  | obj fs => fs.lookup k
  | _ => none

/-- A field of an object, `null` where there is none. -/
def field (k : String) (v : Json) : Json :=
  (v.field? k).getD null

def strings (ss : List String) : Json :=
  arr (ss.map str)

end Json

end Bundler
