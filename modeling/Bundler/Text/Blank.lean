/-!
# Blank characters

`isBlank` is Unicode's white space together with the four information separators U+001C to U+001F.
`trim` removes the blanks at both ends of a text and nothing else.
-/

namespace Bundler.Text

/-- Unicode white space, and the information separators U+001C to U+001F. -/
def isBlank (c : Char) : Bool :=
  let n := c.toNat
  (0x09 ≤ n && n ≤ 0x0d) || (0x1c ≤ n && n ≤ 0x20) || n == 0x85 || n == 0xa0 || n == 0x1680 ||
    (0x2000 ≤ n && n ≤ 0x200a) || n == 0x2028 || n == 0x2029 || n == 0x202f || n == 0x205f || n == 0x3000

def trimLeft (cs : List Char) : List Char :=
  cs.dropWhile isBlank

def trimRight (cs : List Char) : List Char :=
  (cs.reverse.dropWhile isBlank).reverse

/-- The text without the blanks at its two ends. -/
def trim (cs : List Char) : List Char :=
  trimRight (trimLeft cs)

/-- The maximal run of non-blank characters at the front, and what follows it. -/
def spanWord (cs : List Char) : List Char × List Char :=
  cs.span (!isBlank ·)

/-- `trim`, on strings. -/
def trimmed (s : String) : String :=
  String.ofList (trim s.toList)

/-- Nothing but blanks. -/
def allBlank (s : String) : Bool :=
  (trim s.toList).isEmpty

end Bundler.Text
