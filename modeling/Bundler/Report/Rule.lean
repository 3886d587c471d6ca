import Bundler.Report.Envelope
import Bundler.Text.Search

/-!
# Typing a failure

A failure that carries a type keeps it. Any other is typed by its text: `Rule.table` is tried in order, and
the first rule whose condition holds decides (`typeOf`). `Envelope.ofFailure` puts both together.
-/

namespace Bundler

/-- The text by which a failure is typed. -/
structure Evidence where
  message : String
  /-- The texts of the diagnostics. -/
  diagnostics : List String := []

namespace Evidence

def texts (e : Evidence) : List String :=
  e.message :: e.diagnostics

end Evidence

/-- What a rule looks for. -/
inductive Condition where
  /-- Some diagnostic holds a marker. -/
  | diagnostic (markers : List String)
  /-- The message or some diagnostic holds a marker. -/
  | anyText (markers : List String)
  /-- The message holds a marker. -/
  | message (markers : List String)
  | hasDiagnostics
  | always

def Condition.holds (e : Evidence) : Condition → Bool
  | diagnostic ms => e.diagnostics.any (Text.containsAny · ms)
  | anyText ms => e.texts.any (Text.containsAny · ms)
  | message ms => Text.containsAny e.message ms
  | hasDiagnostics => !e.diagnostics.isEmpty
  | always => true

/-- A value of any kind holds a marker: a text as a part, a list as an item, an object as a key. -/
def holdsAny (markers : List String) : Json → Except Failure Bool
  | .str s => .ok (Text.containsAny s markers)
  | .arr xs => .ok (xs.any fun x => x.str?.any markers.contains)
  | .obj fs => .ok (fs.any fun f => markers.contains f.1)
  | v => if markers.isEmpty then .ok false else .error (.mismatch (.notSearchable v.typeName))

/-- The condition holds for a message of any kind. -/
def Condition.holdsFor (given : Json) (texts : List String) : Condition → Except Failure Bool
  | diagnostic ms => .ok (texts.any (Text.containsAny · ms))
  | anyText ms => return (← holdsAny ms given) || texts.any (Text.containsAny · ms)
  | message ms => holdsAny ms given
  | hasDiagnostics => .ok !texts.isEmpty
  | always => .ok true

theorem Condition.holdsFor_str (m : String) (ds : List String) (c : Condition) :
    c.holdsFor (.str m) ds = .ok (c.holds ⟨m, ds⟩) := by
  cases c <;> rfl

namespace Marker

/-- Words of the compiler about a component that doesn't parse. -/
def malformed : List String :=
  ["Expected ", "Unexpected ", "Unterminated ", "Syntax error", "is not valid inside a JSX element",
    "Invalid assignment target"]

def unresolved : List String :=
  ["Could not resolve", "Cannot find module", "Module not found", "is not in this registry",
    "is not in the npm registry", "E404", "404 Not Found", "No matching version found"]

/-- How the package manager begins its own messages. -/
def packageManager : List String :=
  ["npm ERR!", "npm error"]

def network : List String :=
  ["ENOTFOUND", "EAI_AGAIN", "ENETUNREACH", "EHOSTUNREACH", "ETIMEDOUT", "ECONNREFUSED", "ECONNRESET",
    "getaddrinfo", "network request", "socket hang up"]

end Marker

structure Rule where
  type : ErrorType
  condition : Condition
  name : String := ""

namespace Rule

/-- A rule for a type given as a value of any kind. -/
def ofJson (b : Json.Bounds) (type : Json) (condition : Condition) : Except Failure Rule := do
  match ErrorType.ofJson? type with
  | some t => return { type := t, condition }
  | none => throw (.unknownRuleType (← (type.inspectWithin b).mapError .excess))

/-- The rules in the order in which they are tried. -/
def table : List Rule :=
  [⟨.malformed, .diagnostic Marker.malformed, "parse-failure"⟩,
    ⟨.resolve, .anyText Marker.unresolved, "unresolved-module"⟩,
    ⟨.network, .message (Marker.packageManager ++ Marker.network), "package-manager"⟩,
    ⟨.build, .hasDiagnostics, "diagnostics"⟩,
    ⟨.unknown, .always, "fallback"⟩]

/-- The type of the first rule that holds. -/
def typeOf (rules : List Rule) (e : Evidence) : ErrorType :=
  ((rules.find? fun r => r.condition.holds e).map Rule.type).getD .unknown

/-- The same for a message of any kind. -/
def typeOfAny (message : Json) (diagnostics : List String) : List Rule → Except Failure ErrorType
  | [] => .ok .unknown
  | r :: rs => do
    if ← r.condition.holdsFor message diagnostics then return r.type
    typeOfAny message diagnostics rs

theorem typeOfAny_str (m : String) (ds : List String) (rules : List Rule) :
    typeOfAny (.str m) ds rules = .ok (typeOf rules ⟨m, ds⟩) := by
  induction rules with
  | nil => rfl
  | cons r rs ih =>
    simp only [typeOfAny, Condition.holdsFor_str, typeOf, List.find?_cons]
    cases h : r.condition.holds ⟨m, ds⟩
    · simpa [typeOf, bind, Except.bind] using ih
    · simp [bind, Except.bind, pure, Except.pure]

end Rule

namespace Failure

def diagnostics : Failure → List Diagnostic
  | bundle b => b.diagnostics
  | _ => []

/-- The message, or the word for the kind of failure where there is none. A failure of bundling keeps even
an empty message. -/
def report (f : Failure) : String :=
  match f with
  | bundle b => b.message
  | _ => if f.message.isEmpty then f.label else f.message

def evidence (f : Failure) : Evidence where
  message := f.report
  diagnostics := f.diagnostics.map Diagnostic.text

def explicitType : Failure → Option Json
  | bundle b => b.explicitType
  | _ => none

end Failure

/-- The report of a failure of bundling whose message is of any kind. -/
def Envelope.ofMessage (b : Json.Bounds) (rules : List Rule) (explicitType : Option Json) (message : Json)
    (diagnostics : List Diagnostic) : Except Failure Envelope := do
  match explicitType with
  | some t => Envelope.ofJson b t message diagnostics
  | none =>
    let type ← Rule.typeOfAny message (diagnostics.map Diagnostic.text) rules
    return { type, message := ← (message.displayWithin b).mapError .excess, diagnostics }

/-- The report of a failure. It fails itself only if the failure carries a type that isn't one. -/
def Envelope.ofFailure (b : Json.Bounds) (rules : List Rule) (f : Failure) : Except Failure Envelope :=
  match f.explicitType with
  | some t => Envelope.ofJson b t (.str f.report) f.diagnostics
  | none => .ok { type := Rule.typeOf rules f.evidence, message := f.report, diagnostics := f.diagnostics }

end Bundler
