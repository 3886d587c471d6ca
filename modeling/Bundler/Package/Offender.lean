import Bundler.Package.Name
import Bundler.Text.Percent

/-!
# The package a message complains about

Compiler, runtime and package manager each have a way to say that a package is missing. `Offender.shapes`
lists these ways, each a reader that is tried at one place of a text; the first way that fits anywhere
decides, at the first place where it fits. What it reads is a specifier with percent escapes
(`specifierIn?`), and `nameIn` is the package it names, if it names one at all.
-/

namespace Bundler.Package.Offender

open Text

/-- What stands between a lead-in and the next closing quote; it isn't empty. -/
def enclosed (lead : String) (quote : Char) (cs : List Char) : Option (List Char) := do
  let cs ← after? lead.toList cs
  match cs.takeWhile (· != quote), cs.dropWhile (· != quote) with
  | [], _ => none
  | _, [] => none
  | body, _ => some body

/-- A scope with its `@` and its `/`, and the rest; no characters at all where there is none. -/
def spanScope (isPart : Char → Bool) (cs : List Char) : List Char × List Char :=
  match cs with
  | '@' :: rest =>
    match rest.takeWhile isPart, rest.dropWhile isPart with
    | [], _ => ([], cs)
    | scope, '/' :: after => ('@' :: scope ++ ['/'], after)
    | _, _ => ([], cs)
  | _ => ([], cs)

/-- `'name@version' is not in this registry`, the version being optional. -/
def unlisted (cs : List Char) : Option (List Char) := do
  let cs ← after? ['\''] cs
  let (scope, cs) := spanScope (fun c => c != '/' && c != '\'' && !isBlank c) cs
  let isPart := fun c : Char => c != '@' && c != '\'' && !isBlank c
  let base := cs.takeWhile isPart
  if base.isEmpty then none
  let cs := cs.dropWhile isPart
  let cs := if "@".toList.isPrefixOf cs then cs.dropWhile (· != '\'') else cs
  let cs ← after? "' is not in ".toList cs
  let cs ← (after? "this".toList cs).or (after? "the npm".toList cs)
  let _ ← after? " registry".toList cs
  return scope ++ base

/-- The last segment of a path and the rest before its slash. -/
def lastSegment (cs : List Char) : List Char × List Char :=
  let r := cs.reverse
  ((r.takeWhile (· != '/')).reverse, ((r.dropWhile (· != '/')).drop 1).reverse)

/-- An escaped slash with something on either side. -/
def holdsEscapedSlash : List Char → Bool
  | _ :: '%' :: '2' :: f :: b :: cs =>
    f == 'f' || f == 'F' || holdsEscapedSlash ('%' :: '2' :: f :: b :: cs)
  | _ :: cs => holdsEscapedSlash cs
  | [] => false

/-- `404 Not Found - GET` and an address, whose last segment is the name; a scoped one is written with its
slash escaped. -/
def unfetched (cs : List Char) : Option (List Char) := do
  let cs ← after? "404 Not Found - GET http".toList cs
  let cs ← (after? "s://".toList cs).or (after? "://".toList cs)
  let (segment, host) := lastSegment (spanWord cs).1
  if host.isEmpty then none
  match segment with
  | [] => none
  | '@' :: name => if holdsEscapedSlash name then some segment else none
  | _ => some segment

/-- `No matching version found for name@`. -/
def unversioned (cs : List Char) : Option (List Char) := do
  let cs ← after? "No matching version found for ".toList cs
  let (scope, cs) := spanScope (fun c => c != '/' && !isBlank c) cs
  let isPart := fun c : Char => c != '@' && !isBlank c
  match cs.takeWhile isPart, cs.dropWhile isPart with
  | [], _ => none
  | base, '@' :: _ => some (scope ++ base)
  | _, _ => none

/-- The ways to say that a package is missing, in the order in which they are tried. -/
def shapes : List (List Char → Option (List Char)) :=
  [enclosed "Could not resolve \"" '"', enclosed "Cannot find module '" '\'', unlisted, unfetched, unversioned]

/-- The specifier that a message complains about. -/
def specifierIn? (text : String) : Option String :=
  (shapes.findSome? fun shape => firstAt shape text.toList).map fun cs => String.ofList (Percent.decode cs)

/-- The package that a message complains about; none if no shape fits or a file is meant. -/
def nameIn (text : String) : Except Failure (Option String) := do
  match specifierIn? text with
  | none => return none
  | some s => if ← isBare s then return some (← nameOf s) else return none

end Bundler.Package.Offender
