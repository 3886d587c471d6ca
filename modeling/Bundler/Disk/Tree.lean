import Bundler.Disk.Path

/-!
# Directory trees

A tree assigns entries to locations, a location being the list of names from the root. `Tree.locate` walks
a path the way the system does: it follows links, at most forty, and needs every part before the last to be
a directory. `Tree.settle` finds the path without links that a path means, even where nothing is there.

What happens to the tree happens through `mkdir`, `write`, `touch`, `symlink`, `erase` and `lock`. A file
carries the time of its last change: one that was set, or the mark of a change that is like no other.
-/

namespace Bundler

/-- The names on the way from the root. -/
abbrev Location := List String

/-- When an entry changed: at a given nanosecond, or at the `n`-th change that had no given time. -/
inductive Stamp where
  | at (ns : Int)
  | change (n : Nat)
  deriving DecidableEq, Repr

inductive Entry where
  | dir (stamp : Stamp)
  | file (text : String) (executable : Bool) (stamp : Stamp)
  | link (target : String)
  deriving DecidableEq, Repr

structure Tree where
  entries : List (Location × Entry) := []
  /-- How many changes had no given time. -/
  changes : Nat := 0
  /-- The files that another program has locked. -/
  locked : List Location := []
  /-- The directories that the system refuses to list, and why. -/
  unlisted : List (Location × Errno) := []
  deriving Repr

namespace Tree

/-- What is at a location; the root is a directory. -/
def get? (t : Tree) : Location → Option Entry
  | [] => some (.dir (.change 0))
  | l => t.entries.lookup l

def isDirAt (t : Tree) (l : Location) : Bool :=
  match t.get? l with
  | some (.dir _) => true
  | _ => false

/-- The parts of a link's target; a slash at the end counts as an empty part, which asks for a directory. -/
def targetParts (target : String) : List String :=
  let parts := (Text.pieces '/' target).filter (!·.isEmpty)
  if "/".toList.isSuffixOf target.toList then parts ++ [""] else parts

/-- The directory at which a link's target starts. -/
def targetStart (dir : Location) (target : String) : Location :=
  if "/".toList.isPrefixOf target.toList then [] else dir

/-- What is wanted of the last part of a path. -/
inductive LastPart where
  /-- What is at the end of the links there. -/
  | followed
  /-- What is there, be it a link. -/
  | kept
  /-- A place for a file at the end of the links there; no directory may be asked for. -/
  | made
  deriving DecidableEq, Repr

/-- Walks the parts from a directory; `enter` goes on at a link. The last part needn't exist. -/
def walkFrom (t : Tree) (last : LastPart) (enter : Location → List String → Except Errno Location) :
    Location → List String → Except Errno Location
  | dir, [] => .ok dir
  | dir, c :: cs =>
    match t.get? dir with
    | none => .error .noEntry
    | some (.dir _) =>
      if c.isEmpty || c = "." then walkFrom t last enter dir cs
      else if c = ".." then walkFrom t last enter dir.dropLast cs
      else if last = .made && cs = [""] then .error .isDirectory
      else if 255 < c.utf8ByteSize then .error .nameTooLong
      else
        match t.get? (dir ++ [c]) with
        | some (.link target) =>
          if cs.isEmpty && last = .kept then .ok (dir ++ [c])
          else enter (targetStart dir target) (targetParts target ++ cs)
        | _ => walkFrom t last enter (dir ++ [c]) cs
    | some _ => .error .notDirectory

/-- Walks with a number of links to spare. -/
def walk (t : Tree) (last : LastPart) : Nat → Location → List String → Except Errno Location
  | 0 => t.walkFrom last fun _ _ => .error .linkLoop
  | n + 1 => t.walkFrom last (t.walk last n)

/-- Where a relative path starts is the working directory. -/
def startOf (cwd : Location) (p : Path) : Location :=
  if p.isAbsolute then [] else cwd

/-- The bytes of the longest path that the system takes. -/
def longestPath : Nat := 4095

/-- The location a path leads to; its last part needn't exist. -/
def locate (t : Tree) (cwd : Location) (p : Path) (last : LastPart := .followed) : Except Errno Location :=
  if longestPath < p.text.utf8ByteSize then .error .nameTooLong
  else t.walk last 40 (startOf cwd p) p.parts

/-- What is at a location, which has to be something. -/
def entryAt (t : Tree) (l : Location) : Except Errno Entry :=
  match t.get? l with
  | some e => .ok e
  | none => .error .noEntry

/-- The entry a path leads to. -/
def stat (t : Tree) (cwd : Location) (p : Path) : Except Errno Entry := do
  t.entryAt (← t.locate cwd p)

/-- The entry that a text leads to, in which a slash at the end asks for a directory. -/
def statText (t : Tree) (cwd : Location) (text : String) : Except Errno Entry := do
  if text.isEmpty then throw .noEntry
  if longestPath < text.utf8ByteSize then throw .nameTooLong
  t.entryAt (← t.walk .followed 40 (targetStart cwd text) (targetParts text))

/-- What a walk without links came to, as it is spelled: by names from the root or from the working directory,
or from some directory above that. -/
structure Spot where
  /-- How many levels above the working directory the names begin; none for the root. -/
  above : Option Nat
  names : List String
  deriving DecidableEq, Repr

namespace Spot

/-- Where the walk along a text begins that is met at a spot. -/
def startOf (here : Spot) (text : String) : Spot :=
  if "/".toList.isPrefixOf text.toList then ⟨none, []⟩ else here

def child (s : Spot) (name : String) : Spot :=
  ⟨s.above, s.names ++ [name]⟩

/-- The directory above, which is the root itself for the root. -/
def up (s : Spot) : Spot :=
  if s.names.isEmpty then ⟨s.above.map (· + 1), []⟩ else ⟨s.above, s.names.dropLast⟩

def text (s : Spot) : String :=
  match s.above with
  | none => "/" ++ "/".intercalate s.names
  | some n => "/".intercalate (List.replicate n ".." ++ s.names)

def location (cwd : Location) (s : Spot) : Location :=
  match s.above with
  | none => s.names
  | some n => cwd.take (cwd.length - n) ++ s.names

end Spot

/-- A text behind another, with a slash between them; a text that begins with a slash stands alone. -/
def textBehind (before after : String) : String :=
  if "/".toList.isPrefixOf after.toList then after
  else if before.isEmpty || "/".toList.isSuffixOf before.toList then before ++ after
  else before ++ "/" ++ after

/-- The target of a link at a spot, unless the spot's spelling is too long to be looked at. -/
def linkAt? (t : Tree) (cwd : Location) (s : Spot) : Option String :=
  if longestPath < s.text.utf8ByteSize then none
  else
    match t.get? (s.location cwd) with
    | some (.link target) => some target
    | _ => none

/-- The links met so far by their spelling, with what they mean; none for one that is still being followed. -/
abbrev Met := List (Spot × Option Spot)

/-- The spot that the pieces of a text mean from a spot, existing or not; on a loop of links, the spelling of
the link with the text that was left behind it. -/
def settleFrom (t : Tree) (cwd : Location) (enter : Met → Spot → String → Except String (Spot × Met)) :
    Met → Spot → List String → Except String (Spot × Met)
  | met, here, [] => .ok (here, met)
  | met, here, c :: cs =>
    if c.isEmpty || c = "." then settleFrom t cwd enter met here cs
    else if c = ".." then settleFrom t cwd enter met here.up cs
    else
      match t.linkAt? cwd (here.child c) with
      | none => settleFrom t cwd enter met (here.child c) cs
      | some target =>
        match met.lookup (here.child c) with
        | some (some meant) => settleFrom t cwd enter met meant cs
        | some none => .error (textBehind (here.child c).text ("/".intercalate cs))
        | none =>
          match enter ((here.child c, none) :: met) here target with
          | .ok (meant, met) => settleFrom t cwd enter ((here.child c, some meant) :: met) meant cs
          | .error far => .error (textBehind far ("/".intercalate cs))

/-- Follows a number of links one within the other. -/
def settleWithin (t : Tree) (cwd : Location) : Nat → Met → Spot → String → Except String (Spot × Met)
  | 0, met, here, text =>
    t.settleFrom cwd (fun _ _ far => .error far) met (here.startOf text) (Text.pieces '/' text)
  | n + 1, met, here, text =>
    t.settleFrom cwd (t.settleWithin cwd n) met (here.startOf text) (Text.pieces '/' text)

/-- The path of a text as seen from the working directory, with `..` taken by the names alone. -/
def collapsed (cwd : Location) (text : String) : Path :=
  let p := Path.ofString (textBehind (Path.text ⟨.one, cwd⟩) text)
  ⟨p.root, p.parts.foldl (fun up c => if c = ".." then up.dropLast else up ++ [c]) []⟩

/-- The absolute path without links that a path means. Where it runs into a loop of links the rest is taken by
the names alone; it is an error, with the path found, if that still leads into the loop. A link can be met in
some spellings before it repeats; links followed one within the other, four for each entry, count as a loop. -/
def settle (t : Tree) (cwd : Location) (p : Path) : Except Path Path :=
  let found :=
    match t.settleWithin cwd (4 * t.entries.length) [] ⟨some 0, []⟩ p.text with
    | .ok (spot, _) => ⟨.one, spot.location cwd⟩
    | .error far => collapsed cwd far
  match t.locate [] found with
  | .error .linkLoop => .error found
  | _ => .ok found

/-- The names in a directory. -/
def namesIn (t : Tree) (dir : Location) : List String :=
  t.entries.filterMap fun e =>
    match e.1.getLast? with
    | some name => if e.1.dropLast = dir then some name else none
    | none => none

/-- The names in a directory, if the system lists it. -/
def list (t : Tree) (dir : Location) : Except Errno (List String) :=
  match t.unlisted.lookup dir with
  | some e => .error e
  | none => .ok (t.namesIn dir)

/-- What lies below a location, by the names that lead there. -/
def below (t : Tree) (top : Location) : List (Location × Entry) :=
  t.entries.filterMap fun e =>
    if top.isPrefixOf e.1 && e.1 != top then some (e.1.drop top.length, e.2) else none

/-- A tree with an entry in place of what was at its location. -/
def put (t : Tree) (l : Location) (e : Entry) : Tree :=
  { t with entries := (l, e) :: t.entries.filter (·.1 != l) }

theorem get?_put_self (t : Tree) {l : Location} (h : l ≠ []) (e : Entry) : (t.put l e).get? l = some e := by
  match l, h with
  | c :: l, _ => simp [get?, put]

theorem lookup_filter_of_ne {l l' : Location} (h : l' ≠ l) :
    ∀ es : List (Location × Entry), (es.filter (·.1 != l)).lookup l' = es.lookup l'
  | [] => rfl
  | (m, e) :: es => by
    have ih := lookup_filter_of_ne h es
    by_cases hm : m = l
    · subst hm
      simp [ih, List.lookup_cons, beq_eq_false_iff_ne.2 h]
    · simp [hm, List.lookup_cons, ih]

theorem get?_put_of_ne (t : Tree) {l l' : Location} (h : l' ≠ l) (e : Entry) :
    (t.put l e).get? l' = t.get? l' := by
  match l' with
  | [] => rfl
  | c :: l' => simp only [get?, put, List.lookup_cons, beq_eq_false_iff_ne.2 h, lookup_filter_of_ne h]

/-- The stamp of a change without a given time. -/
def next (t : Tree) : Stamp :=
  .change (t.changes + 1)

/-- Marks a change in a directory. -/
def stampDir (t : Tree) (dir : Location) : Tree :=
  let t' := { t with changes := t.changes + 1 }
  match dir, t.isDirAt dir with
  | _ :: _, true => t'.put dir (.dir t.next)
  | _, _ => t'

/-- A new entry. -/
def add (t : Tree) (l : Location) (e : Stamp → Entry) : Tree :=
  (t.put l (e t.next)).stampDir l.dropLast

def mkdir (t : Tree) (cwd : Location) (p : Path) : Except Errno Tree := do
  let l ← t.locate cwd p .kept
  match t.get? l with
  | some _ => throw .taken
  | none => return t.add l .dir

/-- `mkdir` with the missing directories above it; what is there already may stay if it's a directory. The
parts come in reverse. Directories that were made stay even if a later one can't be; then the error comes with
the path at which it happened. -/
def mkdirUp (t : Tree) (cwd : Location) (root : Path.Root) : List String → Tree × Option (Errno × Path)
  | [] => finish t ⟨root, []⟩ (t.mkdir cwd ⟨root, []⟩)
  | c :: up =>
    let p : Path := ⟨root, (c :: up).reverse⟩
    match t.mkdir cwd p with
    | .error .noEntry =>
      match mkdirUp t cwd root up with
      | (t, none) => finish t p (t.mkdir cwd p)
      | r => r
    | r => finish t p r
where
  finish (t : Tree) (p : Path) : Except Errno Tree → Tree × Option (Errno × Path)
    | .ok t => (t, none)
    | .error .noEntry => (t, some (.noEntry, p))
    | .error e =>
      match t.stat cwd p with
      | .ok (.dir _) => (t, none)
      | .error .nameTooLong => (t, some (.nameTooLong, p))
      | _ => (t, some (e, p))

def mkdirAll (t : Tree) (cwd : Location) (p : Path) : Tree × Option (Errno × Path) :=
  t.mkdirUp cwd p.root p.parts.reverse

/-- Makes a file or gives one a new text. A new file isn't executable; an old one stays as it was. -/
def write (t : Tree) (cwd : Location) (p : Path) (text : String) : Except Errno Tree := do
  let l ← t.locate cwd p .made
  match t.get? l with
  | some (.dir _) => throw .isDirectory
  | some (.file _ x _) => return { t with changes := t.changes + 1 }.put l (.file text x t.next)
  | some (.link _) => throw .linkLoop
  | none => return t.add l (.file text false)

def read (t : Tree) (cwd : Location) (p : Path) : Except Errno String := do
  match ← t.stat cwd p with
  | .file text _ _ => return text
  | .dir _ => throw .isDirectory
  | .link _ => throw .linkLoop

def setExecutable (t : Tree) (cwd : Location) (p : Path) (x : Bool) : Except Errno Tree := do
  let l ← t.locate cwd p
  match t.get? l with
  | some (.file text _ s) => return t.put l (.file text x s)
  | some _ => return t
  | none => throw .noEntry

/-- Sets the time of the last change. -/
def touch (t : Tree) (cwd : Location) (p : Path) (ns : Int) : Except Errno Tree := do
  let l ← t.locate cwd p
  match t.get? l with
  | some (.file text x _) => return t.put l (.file text x (.at ns))
  | some (.dir _) => return t.put l (.dir (.at ns))
  | some (.link _) => throw .linkLoop
  | none => throw .noEntry

def symlink (t : Tree) (cwd : Location) (p : Path) (target : String) : Except Errno Tree := do
  let l ← t.locate cwd p .kept
  match t.get? l with
  | some _ => throw .taken
  | none => return t.add l fun _ => .link target

/-- Removes a file or a link, or a directory with everything below it. -/
def erase (t : Tree) (cwd : Location) (p : Path) : Except Errno Tree := do
  let l ← t.locate cwd p .kept
  match t.get? l with
  | none => throw .noEntry
  | some _ =>
    let outside := fun l' : Location => !l.isPrefixOf l'
    return { t with
      entries := t.entries.filter (outside ·.1)
      locked := t.locked.filter outside
      unlisted := t.unlisted.filter (outside ·.1) }.stampDir l.dropLast

/-- Locks a file for another program. The lock goes with the file. -/
def lock (t : Tree) (cwd : Location) (p : Path) : Except Errno Tree :=
  return { t with locked := (← t.locate cwd p) :: t.locked }

def isLocked (t : Tree) (cwd : Location) (p : Path) : Bool :=
  match t.locate cwd p with
  | .ok l => t.locked.contains l
  | .error _ => false

end Tree

end Bundler
