import Bundler.Host.Call

/-!
# Settings

One value says everything that a run can be told: where the cache is, which node to use, whether to make
styles, and how long to wait. `Settings.ofFields` is the only way to a value that is used; it puts the home
directory in for `~` and refuses a timeout that isn't positive. `Settings.ofEnvironment` takes cache and
node from the environment.
-/

namespace Bundler

structure Settings where
  cacheDir : Path
  styles : Bool := true
  node : Option Path := none
  installTimeout : Quantity := .number (.real 120.0)
  compileTimeout : Quantity := .number (.real 120.0)
  lockTimeout : Quantity := .number (.real 300.0)

namespace Settings

def cacheVariable : String := "TERRARIUM_CACHE_DIR"

def nodeVariable : String := "TERRARIUM_NODE"

def defaultCacheName : String := ".terrarium"

/-- The names by which the settings are given. -/
def names : List String :=
  ["cache_dir", "styles", "node", "install_timeout", "compile_timeout", "lock_timeout"]

/-- Where the packages of the cache are. -/
def packages (s : Settings) : Path :=
  s.cacheDir.child "node_modules"

/-- A number of seconds as a double. -/
def seconds (q : Quantity) : Except Failure Float :=
  match q.value.toFloat? with
  | some x => .ok x
  | none => .error .tooLargeForDouble

/-- The three timeouts as doubles: install, compile, lock. -/
def timeouts (s : Settings) : Except Failure (List Float) :=
  [s.installTimeout, s.compileTimeout, s.lockTimeout].mapM seconds

/-- A path given as a value of any kind. -/
def pathOf : Json → Except Failure Path
  | .str s => .ok (Path.ofString s)
  | v => .error (.mismatch (.notPath v.typeName))

/-- A path given as a value of any kind, with the home directory put in. -/
def homedPathOf (home : String) (v : Json) : Except Failure Path := do
  (← pathOf v).expandHome home

/-- A positive timeout given as a value of any kind. -/
def timeoutOf (name : String) (v : Json) : Except Failure Quantity :=
  match Quantity.ofJson? v with
  | some q => if q.value.notPositive then .error (.timeoutNotPositive name) else .ok q
  | none => .error (.mismatch (.notCompared "<=" v.typeName "int"))

/-- The field that gives a path, or none. -/
def pathField : Option Path → Json
  | some p => .str p.text
  | none => .null

/-- The fields that give the settings again. -/
def toFields (s : Settings) : List (String × Json) :=
  [("cache_dir", .str s.cacheDir.text), ("styles", .bool s.styles), ("node", pathField s.node),
    ("install_timeout", s.installTimeout.toJson), ("compile_timeout", s.compileTimeout.toJson),
    ("lock_timeout", s.lockTimeout.toJson)]

/-- What isn't a setting is refused. -/
def onlyKnown (fields : List (String × Json)) : Except Failure Unit :=
  match fields.find? fun f => !names.contains f.1 with
  | some f => .error (.mismatch (.unknownSetting f.1))
  | none => .ok ()

/-- The cache, which has to be given. -/
def cacheDirOf (home : String) (fields : List (String × Json)) : Except Failure Path :=
  match fields.lookup "cache_dir" with
  | some v => homedPathOf home v
  | none => .error (.mismatch (.missingSetting "cache_dir"))

/-- The node to use, if one is given. -/
def nodeOf (home : String) (fields : List (String × Json)) : Except Failure (Option Path) :=
  match (fields.lookup "node").getD .null with
  | .null => .ok none
  | v => (homedPathOf home v).map some

/-- The settings that fields give by name. Only the cache has to be given; what isn't a setting is refused
before anything else is looked at. -/
def ofFields (home : String) (fields : List (String × Json)) : Except Failure Settings := do
  onlyKnown fields
  let cacheDir ← cacheDirOf home fields
  let node ← nodeOf home fields
  let dflt : Settings := { cacheDir }
  let timeout := fun name (q : Quantity) => timeoutOf name ((fields.lookup name).getD q.toJson)
  return {
    cacheDir, node
    styles := ((fields.lookup "styles").getD (.bool dflt.styles)).truthy
    installTimeout := ← timeout "install_timeout" dflt.installTimeout
    compileTimeout := ← timeout "compile_timeout" dflt.compileTimeout
    lockTimeout := ← timeout "lock_timeout" dflt.lockTimeout }

/-- The settings with some of them given anew. -/
def override (home : String) (s : Settings) (fields : List (String × Json)) : Except Failure Settings :=
  if fields.isEmpty then .ok s else ofFields home (Json.ofPairs (s.toFields ++ fields))

/-- The default cache, in the home directory. -/
def defaultCacheDir (home : String) : Except Failure Path :=
  return (← Path.ofHome home).child defaultCacheName

/-- Cache and node as the variables of an environment say, one without a value saying nothing; then what is
given by name. -/
def ofVariables (home : String) (values given : List (String × Json)) : Except Failure Settings := do
  let said := fun name => (values.lookup name).filter Json.truthy
  let cacheDir ← match said cacheVariable with
    | some v => pathOf v
    | none => defaultCacheDir home
  let node ← (said nodeVariable).mapM pathOf
  let s ← ofFields home [("cache_dir", .str cacheDir.text), ("node", pathField node)]
  s.override home given

/-- Cache and node as the environment says, then what is given by name. -/
def ofEnvironment (home : String) (env : Environment) (given : List (String × Json) := []) :
    Except Failure Settings :=
  ofVariables home (env.map fun v => (v.1, .str v.2)) given

end Settings

end Bundler
