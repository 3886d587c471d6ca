import Bundler.Report.Failure
import Bundler.Text.Search

/-!
# Paths

A path is a root and a list of parts, none of them empty or `.`; `Path.ofString` reads one and `text` writes
it, so that two spellings of one path are the same value. `..` is kept, since what it means depends on the
links before it.
-/

namespace Bundler

/-- The slashes at the front of a path: exactly two are kept, and any other number counts as one. -/
inductive Path.Root where
  | none
  | one
  | two
  deriving DecidableEq, Repr

structure Path where
  root : Path.Root
  parts : List String
  deriving DecidableEq, Repr

namespace Path

def Root.text : Root → String
  | none => ""
  | one => "/"
  | two => "//"

def rootOf (s : String) : Root :=
  match (s.toList.takeWhile (· == '/')).length with
  | 0 => .none
  | 2 => .two
  | _ => .one

/-- A part that says something. -/
def isPart (s : String) : Bool :=
  !s.isEmpty && s != "."

def ofString (s : String) : Path :=
  ⟨rootOf s, (Text.pieces '/' s).filter isPart⟩

def text (p : Path) : String :=
  if p.root = .none && p.parts.isEmpty then "." else p.root.text ++ "/".intercalate p.parts

def isAbsolute (p : Path) : Bool :=
  p.root != .none

/-- The path that leads from `p` to `q`; an absolute `q` stands alone. -/
def join (p q : Path) : Path :=
  if q.isAbsolute then q else ⟨p.root, p.parts ++ q.parts⟩

/-- The path of an entry of `p`, by its name. -/
def child (p : Path) (name : String) : Path :=
  p.join (ofString name)

/-- The path without its last part. -/
def parent (p : Path) : Path :=
  ⟨p.root, p.parts.dropLast⟩

/-- The last part, empty where there is none. -/
def name (p : Path) : String :=
  p.parts.getLast?.getD ""

/-- The home directory without the slashes at its end, or the root if nothing is left. -/
def homeText (home : String) : String :=
  match (home.toList.reverse.dropWhile (· == '/')).reverse with
  | [] => "/"
  | cs => String.ofList cs

/-- The home directory of the user that a part `~` or `~name` names. Of other users only the administrator's
is known. -/
def homeOf (part home : String) : Except Failure String :=
  if part = "~" then .ok (homeText home)
  else if part.toList.contains '\x00' then .error .nulInPath
  else if part = "~root" then .ok "/root"
  else .error .homeUnknown

/-- A first part that begins with `~` stands for a home directory, and that may not begin so itself. -/
def expandHome (p : Path) (home : String) : Except Failure Path :=
  match p.root, p.parts with
  | .none, first :: rest =>
    if "~".toList.isPrefixOf first.toList then do
      let dir ← homeOf first home
      if "~".toList.isPrefixOf dir.toList then throw .homeUnknown
      return (ofString dir).join ⟨.none, rest⟩
    else .ok p
  | _, _ => .ok p

def ofHome (home : String) : Except Failure Path :=
  (ofString "~").expandHome home

end Path

end Bundler
