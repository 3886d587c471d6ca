import Bundler.Host.State

/-!
# Running a call

`Call.result` is what comes of a call at the moment at which it's made. `Action.call` takes the outcome that is
written down for a call, records it with the moment, and lets it happen. A call that fails to start is recorded
too.
-/

namespace Bundler

namespace Outcomes

def queue (s : Outcomes) : Call.Kind → List Outcome
  | .npm => s.npm
  | .pass .discover => s.discover
  | .pass .finalize => s.finalize
  | .pass .styles => s.styles

def setQueue (s : Outcomes) (k : Call.Kind) (os : List Outcome) : Outcomes :=
  match k with
  | .npm => { s with npm := os }
  | .pass .discover => { s with discover := os }
  | .pass .finalize => { s with finalize := os }
  | .pass .styles => { s with styles := os }

theorem queue_setQueue_self (s : Outcomes) (k : Call.Kind) (os : List Outcome) :
    (s.setQueue k os).queue k = os := by
  match k with
  | .npm | .pass .discover | .pass .finalize | .pass .styles => rfl

theorem queue_setQueue_of_ne (s : Outcomes) {k k' : Call.Kind} (h : k' ≠ k) (os : List Outcome) :
    (s.setQueue k os).queue k' = s.queue k' := by
  match k, k' with
  | .npm, .npm => exact absurd rfl h
  | .npm, .pass p => cases p <;> rfl
  | .pass p, .npm => cases p <;> rfl
  | .pass p, .pass q => cases p <;> cases q <;> simp_all [setQueue, queue]

/-- The next outcome of a kind, and what is left. -/
def take (s : Outcomes) (k : Call.Kind) : Outcome × Outcomes :=
  match s.queue k with
  | [] => (.fine, s)
  | o :: os => (o, s.setQueue k os)

end Outcomes

namespace Call

/-- The arguments that name packages: those behind the directory that don't look like options. -/
def packageArgs (c : Call) : List String :=
  (c.argv.drop 4).filter fun a => !"--".toList.isPrefixOf a.toList

/-- Where the package manager puts packages. -/
def packageDir (c : Call) : Path :=
  (Path.ofString (c.argv[3]?.getD "")).child "node_modules"

/-- What a program prints when all goes well. -/
def usualOutput (c : Call) : String :=
  match c.kind with
  | .npm => "added " ++ toString c.packageArgs.length ++ " packages"
  | .pass .discover => "\x7b\"ok\": true, \"specifiers\": []\x7d"
  | .pass .finalize => "\x7b\"ok\": true, \"text\": \"BUNDLE();\\n\"\x7d"
  | .pass .styles => "\x7b\"ok\": true, \"css\": \".p-4\x7bpadding:1rem;\x7d\"\x7d"

/-- The packages that a call leaves installed. -/
def installed (c : Call) (status : Int) : Installs → List String
  | .all => c.packageArgs
  | .none => []
  | .these names => names
  | .bySuccess => if status = 0 then c.packageArgs else []

/-- How the log shows a working directory. -/
def cwdText (c : Call) : String :=
  match c.cwd with
  | some p => p.text
  | none => "None"

/-- What a call that ends does to the tree: first its changes, then the packages one after the other. Only the
package manager does anything. -/
def effects (c : Call) (status : Int) (changes : List Change) (installs : Installs) : Changing Unit :=
  match c.kind with
  | .pass _ => return
  | .npm => do
    Change.applyAll c.moment.cwd changes
    (c.installed status installs).forM fun name =>
      Change.makeDirs c.moment.cwd (c.packageDir.join (Path.ofString name))

/-- What comes of a call, and the tree that it leaves, from the moment at which it's made. -/
def result (c : Call) : Except Failure Execution × Tree :=
  match c.moment.outcome with
  | .stops why => (.error (c.failure why), c.moment.tree)
  | .ends status stdout stderr changes installs =>
    match (c.effects status changes installs).run c.moment.tree with
    | (.ok _, t) => (.ok { argv := c.argv, status, stdout := stdout.getD c.usualOutput, stderr }, t)
    | (.error (.os e files), t) => (.error (c.refused e files), t)
    | (.error f, t) => (.error f, t)

end Call

namespace Action

/-- Runs a call to its end. -/
def call (c : Call) : Action Execution := do
  write .debug "terrarium.engine.toolchain"
    ("Running " ++ Text.quotedList (c.argv.take 3) ++ " (cwd=" ++ c.cwdText ++ ")")
  let h ← get
  let (outcome, outcomes) := h.outcomes.take c.kind
  let c := { c with moment := ⟨h.tree, h.cwd, h.limits, outcome⟩ }
  let (r, tree) := c.result
  set { h with outcomes, tree, calls := h.calls ++ [c] }
  MonadExcept.ofExcept r

end Action

end Bundler
