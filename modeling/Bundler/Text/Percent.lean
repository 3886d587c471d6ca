import Bundler.Text.Hex
import Bundler.Text.Utf8

/-!
# Percent escapes

`decode` reads `%` and two hexadecimal digits as a byte, and each maximal run of ASCII characters as the
UTF-8 text of its bytes, repaired where they are ill-formed. Any other `%` stands for itself, and so does
every character beyond ASCII.
-/

namespace Bundler.Text.Percent

/-- The bytes of an ASCII text, escapes read. -/
def escapedBytes : List Char → List Nat
  | [] => []
  | [a] => [a.toNat]
  | [a, b] => [a.toNat, b.toNat]
  | a :: b :: c :: cs =>
    match a == '%', hexValue? b, hexValue? c with
    | true, some x, some y => (x * 16 + y) :: escapedBytes cs
    | _, _, _ => a.toNat :: escapedBytes (b :: c :: cs)

def isAscii (c : Char) : Bool :=
  c.toNat < 0x80

/-- The text with its escapes read; `run` holds the ASCII characters since the last other one, in
reverse. -/
def decodeFrom (run : List Char) : List Char → List Char
  | [] => Utf8.repair (escapedBytes run.reverse)
  | c :: cs =>
    if isAscii c then decodeFrom (c :: run) cs
    else Utf8.repair (escapedBytes run.reverse) ++ c :: decodeFrom [] cs

def decode (cs : List Char) : List Char :=
  decodeFrom [] cs

end Bundler.Text.Percent
