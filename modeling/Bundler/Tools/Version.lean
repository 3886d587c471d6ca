import Bundler.Text.Digit

/-!
# Versions of node

A version is read from the front of a directory name: three numbers with points between them, perhaps after
a `v`, in digits of any script. `Version.newest?` picks a name with a greatest version; a name without a
version is less than one with. The name of a file has at most 255 bytes, so that its numbers have few digits.
-/

namespace Bundler.Version

open Text

/-- A number and the rest of the text. -/
def number? (cs : List Char) : Option (Nat × List Char) :=
  match spanDigits cs with
  | ([], _) => none
  | (ds, rest) => some (ofDigits ds, rest)

def point? : List Char → Option (List Char)
  | '.' :: cs => some cs
  | _ => none

/-- The three numbers at the front of a name. -/
def ofName? (name : String) : Option (List Nat) := do
  let cs := match name.toList with
    | 'v' :: cs => cs
    | cs => cs
  let (major, cs) ← number? cs
  let (minor, cs) ← number? (← point? cs)
  let (patch, _) ← number? (← point? cs)
  return [major, minor, patch]

/-- Number by number; no version at all comes first. -/
def less : Option (List Nat) → Option (List Nat) → Bool
  | _, none => false
  | none, some _ => true
  | some a, some b => a < b

/-- A name whose version no other one exceeds. -/
def newest? : List String → Option String
  | [] => none
  | name :: names => some (names.foldl (fun best n => if less (ofName? best) (ofName? n) then n else best) name)

end Bundler.Version
