import Bundler.Json.Bounds
import Bundler.Text.Hex

/-!
# Reading JSON

`Json.parse` reads a whole text as one value with blanks (space, TAB, CR, LF) around it. Besides the
standard's numbers it takes `NaN`, `Infinity` and `-Infinity`; a number with neither point nor exponent is
an integer. Of two fields with one key the later value stands, in the place of the earlier. A text is read within
bounds, and the first thing in it that is malformed or too much ends the reading; `Json.parse?` reads whatever is
written.
-/

namespace Bundler.Json

/-- Why a text isn't read as a value. -/
inductive Fault where
  | malformed
  | excess (e : Excess)
  deriving DecidableEq, Repr

/-- There are too many levels for an array or an object. -/
def Fault.tooDeep (kind : String) : Fault :=
  .excess (.levels (some ("decoding a JSON " ++ kind ++ " from a unicode string")))

namespace Reader

def orMalformed : Option α → Except Fault α
  | some a => .ok a
  | none => .error .malformed

def isSpace (c : Char) : Bool :=
  c == ' ' || c == '\t' || c == '\n' || c == '\r'

def skip (cs : List Char) : List Char :=
  cs.dropWhile isSpace

/-- The number of four hexadecimal digits. -/
def hex4? (a b c d : Char) : Option Nat := do
  let a ← Text.hexValue? a
  let b ← Text.hexValue? b
  let c ← Text.hexValue? c
  let d ← Text.hexValue? d
  return ((a * 16 + b) * 16 + c) * 16 + d

def shortEscape? : Char → Option Nat
  | '"' => some 0x22
  | '\\' => some 0x5c
  | '/' => some 0x2f
  | 'b' => some 0x08
  | 'f' => some 0x0c
  | 'n' => some 0x0a
  | 'r' => some 0x0d
  | 't' => some 0x09
  | _ => none

/-- The codes up to the closing quote, an escape giving a UTF-16 unit, and what follows the quote. -/
def codes : List Char → Option (List Nat × List Char)
  | [] => none
  | '"' :: cs => some ([], cs)
  | '\\' :: 'u' :: a :: b :: c :: d :: cs =>
    match hex4? a b c d, codes cs with
    | some n, some (ns, rest) => some (n :: ns, rest)
    | _, _ => none
  | '\\' :: e :: cs =>
    match shortEscape? e, codes cs with
    | some n, some (ns, rest) => some (n :: ns, rest)
    | _, _ => none
  | c :: cs =>
    if c.toNat < 0x20 then none
    else match codes cs with
      | some (ns, rest) => some (c.toNat :: ns, rest)
      | none => none

def isHigh (n : Nat) : Bool :=
  0xd800 ≤ n && n < 0xdc00

def isLow (n : Nat) : Bool :=
  0xdc00 ≤ n && n < 0xe000

/-- A high and a low surrogate next to each other are one character; one that stands alone becomes
U+FFFD. -/
def joinUnits : List Nat → List Char
  | [] => []
  | [n] => [single n]
  | n :: m :: ns =>
    if isHigh n && isLow m then Char.ofNat (0x10000 + (n - 0xd800) * 0x400 + (m - 0xdc00)) :: joinUnits ns
    else single n :: joinUnits (m :: ns)
where
  single (n : Nat) : Char := if isHigh n || isLow n then '\uFFFD' else Char.ofNat n

/-- What follows an opening quote. -/
def string? (cs : List Char) : Option (String × List Char) :=
  (codes cs).map fun r => (String.ofList (joinUnits r.1), r.2)

/-- A sign, if there is one. -/
def sign : List Char → Bool × List Char
  | '-' :: cs => (true, cs)
  | cs => (false, cs)

/-- A single zero, or digits that don't begin with one. -/
def whole? : List Char → Option (List Char × List Char)
  | '0' :: cs => some (['0'], cs)
  | c :: cs => if c.isDigit then some (c :: cs.takeWhile Char.isDigit, cs.dropWhile Char.isDigit) else none
  | [] => none

/-- A point and at least one digit. -/
def fraction : List Char → Option (List Char) × List Char
  | '.' :: cs =>
    match cs.takeWhile Char.isDigit with
    | [] => (none, '.' :: cs)
    | ds => (some ds, cs.dropWhile Char.isDigit)
  | cs => (none, cs)

/-- A mark, a sign or none, and at least one digit. -/
def exponent (cs : List Char) : Option Int × List Char :=
  match cs with
  | [] => (none, [])
  | e :: rest =>
    if e = 'e' ∨ e = 'E' then
      let (neg, ds) := match rest with
        | '-' :: r => (true, r)
        | '+' :: r => (false, r)
        | r => (false, r)
      match ds.takeWhile Char.isDigit with
      | [] => (none, cs)
      | xs =>
        let x : Int := Nat.ofDigitChars 10 xs 0
        (some (if neg then -x else x), ds.dropWhile Char.isDigit)
    else (none, cs)

def number? (cs : List Char) : Option (Number × List Char) := do
  let (neg, cs) := sign cs
  let (ds, cs) ← whole? cs
  let (frac, cs) := fraction cs
  let (exp, cs) := exponent cs
  match frac, exp with
  | none, none =>
    let n : Int := Nat.ofDigitChars 10 ds 0
    return (.int (if neg then -n else n), cs)
  | _, _ =>
    let fs := frac.getD []
    return (.real (Decimal.toFloat neg ⟨Nat.ofDigitChars 10 (ds ++ fs) 0, exp.getD 0 - fs.length⟩), cs)

/-- The words that stand for a value. -/
def words : List (List Char × Json) :=
  [("null".toList, .null), ("true".toList, .bool true), ("false".toList, .bool false),
    ("NaN".toList, .num (.real (0.0 / 0.0))), ("Infinity".toList, .num (.real (1.0 / 0.0))),
    ("-Infinity".toList, .num (.real (-1.0 / 0.0)))]

def word? (cs : List Char) : Option (Json × List Char) :=
  words.findSome? fun w => if w.1.isPrefixOf cs then some (w.2, cs.drop w.1.length) else none

def scalar? (cs : List Char) : Option (Json × List Char) :=
  match word? cs with
  | some r => some r
  | none => (number? cs).map fun r => (.num r.1, r.2)

/-- A whole number may have too many digits. -/
def checked (digits : Option Nat) : Json × List Char → Except Fault (Json × List Char)
  | (.num n, rest) =>
    match brokenBy? digits n with
    | some limit => .error (.excess (.digits limit (some n.digits)))
    | none => .ok (.num n, rest)
  | r => .ok r

variable (digits : Option Nat)

mutual

/-- A value at the very front of the text. Every step uses up fuel, and every array or object a level. -/
def value : Nat → Nat → List Char → Except Fault (Json × List Char)
  | 0, _, _ => .error .malformed
  | n + 1, levels, cs =>
    match cs with
    | '"' :: cs => orMalformed ((string? cs).map fun r => (.str r.1, r.2))
    | '[' :: cs =>
      match levels with
      | 0 => .error (.tooDeep "array")
      | levels + 1 =>
        match skip cs with
        | ']' :: rest => .ok (.arr [], rest)
        | cs => (items n levels cs).map fun r => (.arr r.1, r.2)
    | '\x7b' :: cs =>
      match levels with
      | 0 => .error (.tooDeep "object")
      | levels + 1 =>
        match skip cs with
        | '\x7d' :: rest => .ok (.obj [], rest)
        | cs => (members n levels cs).map fun r => (.obj (ofPairs r.1), r.2)
    | cs => orMalformed (scalar? cs) >>= checked digits

/-- The rest of an array from its next item on, with the closing bracket. -/
def items : Nat → Nat → List Char → Except Fault (List Json × List Char)
  | 0, _, _ => .error .malformed
  | n + 1, levels, cs =>
    match value n levels cs with
    | .error f => .error f
    | .ok (v, cs) =>
      match skip cs with
      | ']' :: rest => .ok ([v], rest)
      | ',' :: rest => (items n levels (skip rest)).map fun r => (v :: r.1, r.2)
      | _ => .error .malformed

/-- The rest of an object from its next key on, with the closing brace. -/
def members : Nat → Nat → List Char → Except Fault (List (String × Json) × List Char)
  | 0, _, _ => .error .malformed
  | n + 1, levels, cs =>
    match cs with
    | '"' :: cs =>
      match string? cs with
      | none => .error .malformed
      | some (k, cs) =>
        match skip cs with
        | ':' :: cs =>
          match value n levels (skip cs) with
          | .error f => .error f
          | .ok (v, cs) =>
            match skip cs with
            | '\x7d' :: rest => .ok ([(k, v)], rest)
            | ',' :: rest => (members n levels (skip rest)).map fun r => ((k, v) :: r.1, r.2)
            | _ => .error .malformed
        | _ => .error .malformed
    | _ => .error .malformed

end

end Reader

/-- The value that the whole text writes. A value takes at most two steps for each of its characters. -/
def parse (b : Bounds) (text : String) : Except Fault Json :=
  let cs := text.toList
  match Reader.value b.digits (2 * cs.length + 2) b.levels (Reader.skip cs) with
  | .ok (v, rest) => if (Reader.skip rest).isEmpty then .ok v else .error .malformed
  | .error f => .error f

/-- Bounds that no value of a text exceeds: there is a level for every step that the reader may take. -/
def Bounds.ofText (text : String) : Bounds :=
  ⟨none, 2 * text.toList.length + 2⟩

/-- The value that the whole text writes, if it writes one, however large it is. -/
def parse? (text : String) : Option Json :=
  (parse (.ofText text) text).toOption

end Bundler.Json
