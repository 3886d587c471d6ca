import Bundler.Cache.Manifest
import Bundler.Package.Name
import Bundler.Settings

/-!
# The cache

The cache is a directory with a manifest, the packages, and a lock that lets one install at a time into it.
A package is installed exactly if its directory is there (`Cache.isInstalled`); nothing else says so.
`Cache.ensure` makes the directory and the manifest where they are missing.
-/

namespace Bundler

structure Cache where
  root : Path
  deriving DecidableEq, Repr

namespace Cache

def ofSettings (s : Settings) : Cache :=
  ⟨s.cacheDir⟩

def display (c : Cache) : String :=
  "CacheStore(" ++ Text.quoted c.root.text ++ ")"

def packages (c : Cache) : Path :=
  c.root.child "node_modules"

def manifest (c : Cache) : Path :=
  c.root.child Manifest.fileName

def lock (c : Cache) : Path :=
  c.root.child ".install.lock"

/-- The directory of a name; a scope is a directory of its own. -/
def dirOf (c : Cache) (name : String) : Path :=
  (Text.pieces '/' name).foldl Path.child c.packages

/-- The directory of the package that a specifier names. -/
def packageDir (c : Cache) (specifier : String) : Except Failure Path :=
  return c.dirOf (← Package.nameOf specifier)

def isInstalled (c : Cache) (specifier : String) : Action Bool := do
  Action.isDir (← MonadExcept.ofExcept (c.packageDir specifier))

/-- The rendering framework is what every install begins with. -/
def needsInstall (c : Cache) : Action Bool :=
  return !(← c.isInstalled "react")

/-- Makes the directory and the manifest where they are missing. -/
def ensure (c : Cache) : Action Unit := do
  Action.makeDirs c.root
  if !(← Action.exists? c.manifest) then
    Action.write .debug "terrarium.cache.store" ("Writing cache manifest " ++ c.manifest.text)
    Manifest.put c.manifest (← MonadExcept.ofExcept (Manifest.build Manifest.defaultName))

/-- Waits for the lock. Others may change the tree until it's granted. -/
def acquire (c : Cache) : Action Unit := do
  let others := (← get).beforeLock
  modify fun h => { h with beforeLock := [] }
  Action.changeAll others
  let h ← get
  Action.changing fun cwd => h.locking.take cwd c.lock

end Cache

end Bundler
