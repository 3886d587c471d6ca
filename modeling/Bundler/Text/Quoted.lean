import Bundler.Text.Hex
import Bundler.Text.Printable

/-!
# Quoted text

The form in which a message shows a text: in single quotes, or in double quotes where the text holds a
single quote and no double one; backslash, the quote in use, LF, CR and TAB are escaped by a backslash,
any other character that is not printable by its code point.
-/

namespace Bundler.Text

/-- The quote that stands around the text. -/
def quoteFor (cs : List Char) : Char :=
  if cs.contains '\'' && !cs.contains '"' then '"' else '\''

def escaped (quote c : Char) : List Char :=
  if c = quote ∨ c = '\\' then ['\\', c]
  else if c = '\n' then ['\\', 'n']
  else if c = '\r' then ['\\', 'r']
  else if c = '\t' then ['\\', 't']
  else if isPrintable c then [c]
  else if c.toNat < 0x100 then '\\' :: 'x' :: hex 2 c.toNat
  else if c.toNat < 0x10000 then '\\' :: 'u' :: hex 4 c.toNat
  else '\\' :: 'U' :: hex 8 c.toNat

def quotedChars (cs : List Char) : List Char :=
  let q := quoteFor cs
  q :: cs.flatMap (escaped q) ++ [q]

def quoted (s : String) : String :=
  String.ofList (quotedChars s.toList)

/-- A list of texts, each quoted, in brackets. -/
def quotedList (ss : List String) : String :=
  "[" ++ ", ".intercalate (ss.map quoted) ++ "]"

end Bundler.Text
