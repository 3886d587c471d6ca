import Bundler.Json.Bounds
import Bundler.Text.Hex

/-!
# Writing JSON

Printable ASCII only: any other character is written as one or two UTF-16 escapes. `Json.write` writes a value on
one line, `Json.writeIndented` with one item a line, each level two blanks deeper. Whatever may be too much to be
written goes through `Json.encode` and `Json.encodeIndented`, which fail by what is.
-/

namespace Bundler.Json

namespace Writer

/-- One UTF-16 unit. -/
def unit (n : Nat) : List Char :=
  '\\' :: 'u' :: Text.hex 4 n

def char (c : Char) : List Char :=
  if c = '"' then ['\\', '"']
  else if c = '\\' then ['\\', '\\']
  else if c = '\n' then ['\\', 'n']
  else if c = '\r' then ['\\', 'r']
  else if c = '\t' then ['\\', 't']
  else if c = '\x08' then ['\\', 'b']
  else if c = '\x0c' then ['\\', 'f']
  else
    let n := c.toNat
    if 0x20 ≤ n ∧ n < 0x7f then [c]
    else if n < 0x10000 then unit n
    else unit (0xd800 + (n - 0x10000) / 0x400) ++ unit (0xdc00 + (n - 0x10000) % 0x400)

def string (s : String) : List Char :=
  '"' :: s.toList.flatMap char ++ ['"']

/-- The format of a double in a document. -/
def layout : Layout :=
  { Layout.plain with infinity := "Infinity", nan := "NaN" }

def number : Number → List Char
  | .int n => (toString n).toList
  | .real x => (layout.write x).toList

mutual

def value : Json → List Char
  | .null => "null".toList
  | .bool true => "true".toList
  | .bool false => "false".toList
  | .num n => number n
  | .str s => string s
  | .arr xs => '[' :: items xs ++ [']']
  | .obj fs => '\x7b' :: fields fs ++ ['\x7d']

def items : List Json → List Char
  | [] => []
  | [v] => value v
  | v :: w :: vs => value v ++ ',' :: ' ' :: items (w :: vs)

def fields : List (String × Json) → List Char
  | [] => []
  | [(k, v)] => string k ++ ':' :: ' ' :: value v
  | (k, v) :: f :: fs => string k ++ ':' :: ' ' :: value v ++ ',' :: ' ' :: fields (f :: fs)

end

/-- A new line at a depth. -/
def newLine (depth : Nat) : List Char :=
  '\n' :: List.replicate (2 * depth) ' '

mutual

/-- A value whose first line stands at the given depth. -/
def indented (depth : Nat) : Json → List Char
  | .arr (v :: vs) => '[' :: indentedItems (depth + 1) (v :: vs) ++ newLine depth ++ [']']
  | .obj (f :: fs) => '\x7b' :: indentedFields (depth + 1) (f :: fs) ++ newLine depth ++ ['\x7d']
  | v => value v

def indentedItems (depth : Nat) : List Json → List Char
  | [] => []
  | [v] => newLine depth ++ indented depth v
  | v :: w :: vs => newLine depth ++ indented depth v ++ ',' :: indentedItems depth (w :: vs)

def indentedFields (depth : Nat) : List (String × Json) → List Char
  | [] => []
  | [(k, v)] => newLine depth ++ string k ++ ':' :: ' ' :: indented depth v
  | (k, v) :: f :: fs =>
    newLine depth ++ string k ++ ':' :: ' ' :: indented depth v ++ ',' :: indentedFields depth (f :: fs)

end

end Writer

/-- The value on one line, with a blank after each comma and colon. -/
def write (v : Json) : String :=
  String.ofList (Writer.value v)

def writeIndented (v : Json) : String :=
  String.ofList (Writer.indented 0 v)

/-- The value on one line, within bounds. -/
def encode (b : Bounds) (v : Json) : Except Excess String :=
  converted .written b v v.write

def encodeIndented (b : Bounds) (v : Json) : Except Excess String :=
  converted .indented b v v.writeIndented

/-- A string as a JSON literal. -/
def literal (s : String) : String :=
  String.ofList (Writer.string s)

end Bundler.Json
