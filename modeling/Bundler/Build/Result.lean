import Bundler.Report.Envelope

/-!
# Results of a run

A run goes through stages, one after the other, and ends with a script or with the report of a failure and
the stage that it had reached.
-/

namespace Bundler

inductive Stage where
  | init
  | cacheReady
  | baseInstalled
  | discovered
  | missingInstalled
  | finalized
  | styled
  | unstyled
  | done
  deriving DecidableEq, Repr

def Stage.name : Stage → String
  | init => "init"
  | cacheReady => "cache-ready"
  | baseInstalled => "base-installed"
  | discovered => "discovered"
  | missingInstalled => "missing-installed"
  | finalized => "finalized"
  | styled => "styled"
  | unstyled => "unstyled"
  | done => "done"

inductive BuildResult where
  | success (script : String) (styled : Bool)
  | failure (envelope : Envelope) (stage : Stage)

namespace BuildResult

/-- The last stage of the run. -/
def stage : BuildResult → Stage
  | success .. => .done
  | failure _ s => s

/-- What a result is written as. -/
def document : BuildResult → Json
  | success script _ => .obj [("error", .bool false), ("script", .str script)]
  | failure e _ => e.toJson

/-- The message by which a watcher reports a build. -/
def event : BuildResult → Json
  | success script _ => .obj [("event", .str "bundle-ready"), ("payload", .str script)]
  | failure e _ => .obj [("event", .str "bundle-error"), ("payload", e.toJson)]

end BuildResult

end Bundler
