import Bundler.Report.Failure
import Bundler.Text.Blank
import Bundler.Text.Search

/-!
# Package names

An import specifier names a package, perhaps with a version behind `@`, perhaps with a path inside the
package behind `/`, perhaps with blanks around it. `Package.nameOf` is the name of the package, whose
scope, if it has one, stands before the first `/` and begins with `@`. `isBare` tells specifiers of packages
from those of files and addresses. `distinctNames` is the set of names of a list of specifiers, in the order
in which they first occur: nothing is lost (`mem_distinct`) and nothing is there twice (`distinct_nodup`).
-/

namespace Bundler.Package

/-- The specifier without the blanks around it; it must hold something else. -/
def specifier (s : String) : Except Failure (List Char) :=
  match Text.trim s.toList with
  | [] => .error .specifierBlank
  | cs => .ok cs

/-- Schemes of imports that never name a package. -/
def schemes : List (List Char) :=
  ["node:", "http:", "https:", "data:", "file:"].map String.toList

/-- No relative or absolute path, and no address with one of the schemes, in capital letters or small. No
character but an ASCII capital has one of the schemes' letters as its small form. -/
def isBareChars (cs : List Char) : Bool :=
  !(".".toList.isPrefixOf cs || "/".toList.isPrefixOf cs) &&
    !schemes.any fun scheme => scheme.isPrefixOf (cs.map Char.toLower)

/-- What stands before a version: the text up to the first `@`. -/
def beforeVersion (cs : List Char) : List Char :=
  cs.takeWhile (· != '@')

/-- The name in a trimmed specifier: two segments behind an `@`, otherwise one. -/
def nameChars (cs : List Char) : List Char :=
  match cs with
  | '@' :: rest =>
    match rest.splitOn '/' with
    | scope :: base :: _ => '@' :: beforeVersion (scope ++ '/' :: base)
    | _ => '@' :: beforeVersion rest
  | _ => beforeVersion (cs.takeWhile (· != '/'))

def isBare (s : String) : Except Failure Bool :=
  return isBareChars (← specifier s)

def nameOf (s : String) : Except Failure String :=
  return String.ofList (nameChars (← specifier s))

/-- Adds a name at the end if it is new. -/
def addName (names : List String) (name : String) : List String :=
  if names.contains name then names else names ++ [name]

theorem mem_addName {names : List String} {name n : String} :
    n ∈ addName names name ↔ n ∈ names ∨ n = name := by
  unfold addName
  split
  · next h =>
    constructor
    · exact .inl
    · rintro (h' | rfl)
      · exact h'
      · simpa using h
  · simp

theorem addName_nodup {names : List String} (h : names.Nodup) (name : String) :
    (addName names name).Nodup := by
  unfold addName
  split
  · exact h
  · next h' =>
    rw [List.nodup_append]
    refine ⟨h, by simp, ?_⟩
    rintro a ha b hb rfl
    simp at hb
    subst hb
    exact h' (by simpa using ha)

theorem mem_foldl_addName {n : String} :
    ∀ ns acc : List String, n ∈ ns.foldl addName acc ↔ n ∈ acc ∨ n ∈ ns
  | [], acc => by simp
  | m :: ns, acc => by simp [mem_foldl_addName ns, mem_addName, or_assoc]

theorem foldl_addName_nodup :
    ∀ (ns : List String) {acc : List String}, acc.Nodup → (ns.foldl addName acc).Nodup
  | [], _, h => h
  | m :: ns, _, h => foldl_addName_nodup ns (addName_nodup h m)

/-- Each name once, in the order of first occurrence. -/
def distinct (names : List String) : List String :=
  names.foldl addName []

theorem mem_distinct {ns : List String} {n : String} : n ∈ distinct ns ↔ n ∈ ns := by
  simp [distinct, mem_foldl_addName]

theorem distinct_nodup (ns : List String) : (distinct ns).Nodup :=
  foldl_addName_nodup ns List.nodup_nil

/-- The names of the specifiers, each once. -/
def distinctNames (specifiers : List String) : Except Failure (List String) :=
  return distinct (← specifiers.mapM nameOf)

/-- A specifier given as a value of any kind. -/
def ofJson : Json → Except Failure String
  | .str s => .ok s
  | v => .error (.specifierNotText v.typeName)

end Bundler.Package
