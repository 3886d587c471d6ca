/-!
# Lines

A text file is read with every line ending, whether LF, CR or CR LF, as one LF (`unixLines`). The
headline of a text is its part before the first line boundary; there the boundaries are the wider set
`isLineBreak`.
-/

namespace Bundler.Text

/-- CR LF and CR each become LF. -/
def unixLines : List Char → List Char
  | [] => []
  | '\r' :: '\n' :: cs => '\n' :: unixLines cs
  | c :: cs => (if c = '\r' then '\n' else c) :: unixLines cs

/-- LF, CR, VT, FF, the separators U+001C to U+001E, NEL, and U+2028 and U+2029. -/
def isLineBreak (c : Char) : Bool :=
  let n := c.toNat
  (0x0a ≤ n && n ≤ 0x0d) || (0x1c ≤ n && n ≤ 0x1e) || n == 0x85 || n == 0x2028 || n == 0x2029

/-- The part before the first line boundary. -/
def headline (s : String) : String :=
  String.ofList (s.toList.takeWhile (!isLineBreak ·))

/-- The part before the first LF. -/
def firstLine (cs : List Char) : List Char :=
  cs.takeWhile (· != '\n')

end Bundler.Text
