import Bundler.Cache.Store
import Bundler.Program.Answer
import Bundler.Program.Text
import Bundler.Tools.Toolchain

/-!
# Where the passes work

A workplace has a cache, a toolchain and settings. A pass runs its program there (`runPass`) and gets the
accepted answer; the program runs in the cache's directory, so that it finds what it imports there.
-/

namespace Bundler

structure Workplace where
  cache : Cache
  toolchain : Toolchain
  settings : Settings

namespace Workplace

/-- The configuration of a pass: its own fields, and where the packages are. -/
def config (w : Workplace) (fields : List (String × Json)) : Json :=
  .obj (fields ++ [("nodeModules", .str w.cache.packages.text)])

/-- The answer to a program of a pass. -/
def runPass (w : Workplace) (p : Pass) (config : Json) : Action Json := do
  let e ← Action.call (w.toolchain.nodeCall p (Program.text p config) w.cache.root w.settings.compileTimeout)
  MonadExcept.ofExcept (Answer.read ((← get).limits.answer p) p.name e)

end Workplace

end Bundler
