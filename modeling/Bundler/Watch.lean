import Bundler.Build.Result
import Bundler.Host.State

/-!
# Watching a component

The component is built once and then again whenever the time of its last change is another than before. A
poll that comes too early after the last build does nothing, and neither does one at which the file is
missing: a change that is put off is seen again at the next poll. `Watch.step` is what a poll decides, from
what the watcher remembers, what it finds and what time it is; `Watch.poll` carries it out and `Watch.loop`
polls again and again.
-/

namespace Bundler.Watch

def source : String := "terrarium.watch"

structure Options where
  /-- Milliseconds between two builds. -/
  debounce : Number := .int 300
  /-- Seconds between two polls. -/
  pollInterval : Number := .real 0.25
  /-- How many builds to make; without a number, as many as it takes. -/
  maxBuilds : Option Number := none

/-- What a watcher remembers. -/
structure Memory where
  builds : Nat
  /-- The stamp that was found for the last build. -/
  stamp : Option Stamp
  builtAt : Number

/-- The milliseconds since the last build. -/
def elapsed (last now : Number) : Except Failure Float :=
  match (now.sub? last).bind Number.toFloat? with
  | some seconds => .ok (seconds * 1000.0)
  | none => .error .tooLargeForDouble

/-- At least the debounce has passed since the last build. -/
def shouldRebuild (last debounce now : Number) : Except Failure Bool :=
  return (Number.real (← elapsed last now)).atLeast debounce

/-- `shouldRebuild` on values of any kind, of which only quantities have an answer. -/
def shouldRebuildJson (last debounce now : Json) : Except Failure Bool :=
  match Quantity.ofJson? now, Quantity.ofJson? last with
  | some now, some last => do
    let ms ← elapsed last.value now.value
    match Quantity.ofJson? debounce with
    | some q => return (Number.real ms).atLeast q.value
    | none => throw (.mismatch (.notCompared ">=" "float" debounce.typeName))
  | _, _ => .error (.mismatch (.notCombined "-" now.typeName last.typeName))

/-- A poll that finds the file with a new stamp, and not too early, asks for a build; this is what is
remembered from then on. -/
def step (o : Options) (m : Memory) (found : Option Stamp) (now : Number) : Except Failure (Option Memory) := do
  if found.isNone || found == m.stamp then return none
  if ← shouldRebuild m.builtAt o.debounce now then
    return some { builds := m.builds + 1, stamp := found, builtAt := now }
  else return none

/-- More builds are wanted. -/
def goesOn (o : Options) (m : Memory) : Bool :=
  match o.maxBuilds with
  | some n => n.exceeds (.int m.builds)
  | none => true

/-- What a watcher works with: the build, the place where its events go, and the time. Others may work during
every step of these. -/
structure Surroundings (σ : Type) where
  build : Path → ActionWith σ BuildResult
  emit : Json → ActionWith σ Unit
  sleep : Number → ActionWith σ Unit
  clock : σ → Host → Number

/-- The time of the host. -/
def onHost (build : Path → ActionWith σ BuildResult) (emit : Json → ActionWith σ Unit) : Surroundings σ where
  build := build
  emit := emit
  sleep seconds := Action.sleep seconds
  clock _ h := h.clock.now

/-- What time it is. -/
def Surroundings.now (around : Surroundings σ) : ActionWith σ Number :=
  return around.clock (← ActionWith.kept) (← get)

variable (o : Options) (around : Surroundings σ) (path : Path)

/-- Builds and tells what came of it. -/
def rebuild : ActionWith σ Unit := do
  around.emit (← around.build path).event

/-- The first build, and what is remembered of it. -/
def start : ActionWith σ Memory := do
  rebuild around path
  return { builds := 1, stamp := ← Action.stamp? path, builtAt := ← around.now }

/-- A poll, with the build that it asks for. -/
def poll (m : Memory) : ActionWith σ Memory := do
  around.sleep o.pollInterval
  let found ← Action.stamp? path
  match ← MonadExcept.ofExcept (step o m found (← around.now)) with
  | none => return m
  | some m =>
    Action.write .info source ("Change detected in " ++ path.name ++ ", rebuilding")
    rebuild around path
    return m

/-- The polls after the first build. The user interrupts before the fuel is used up. -/
def loop : Nat → Memory → ActionWith σ Nat
  | 0, _ => throw .interrupted
  | fuel + 1, m => do
    if !goesOn o m then return m.builds
    loop fuel (← poll o around path m)

/-- Builds the component at a path, and again on every change; the number of builds. -/
def watch (o : Options) (entry : Path) (build : Path → ActionWith σ BuildResult)
    (emit : Json → ActionWith σ Unit) : ActionWith σ Nat := do
  let path ← Action.resolve (← Action.expandHome entry)
  let m ← start (onHost build emit) path
  loop o (onHost build emit) path (← Action.sleepsLeft) m

end Bundler.Watch
