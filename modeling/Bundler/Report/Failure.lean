import Bundler.Json.Quantity
import Bundler.Program.Pass
import Bundler.Report.Diagnostic
import Bundler.Report.ErrorType
import Bundler.Report.Mismatch

/-!
# Failures

`Failure` lists the causes for which an operation gives up. `Failure.message` is the wording of each and
`Failure.label` the word for its kind, which stands in for an empty message and before the error of a style
pass.
-/

namespace Bundler

/-- Why the file system refuses an operation. -/
inductive Errno where
  | noEntry
  | notExecutable
  | noMemory
  | denied
  | taken
  | notDirectory
  | isDirectory
  | nameTooLong
  | linkLoop
  deriving DecidableEq, Repr

namespace Errno

def code : Errno → Nat
  | noEntry => 2
  | notExecutable => 8
  | noMemory => 12
  | denied => 13
  | taken => 17
  | notDirectory => 20
  | isDirectory => 21
  | nameTooLong => 36
  | linkLoop => 40

def text : Errno → String
  | noEntry => "No such file or directory"
  | notExecutable => "Exec format error"
  | noMemory => "Cannot allocate memory"
  | denied => "Permission denied"
  | taken => "File exists"
  | notDirectory => "Not a directory"
  | isDirectory => "Is a directory"
  | nameTooLong => "File name too long"
  | linkLoop => "Too many levels of symbolic links"

def label : Errno → String
  | noEntry => "FileNotFoundError"
  | denied => "PermissionError"
  | taken => "FileExistsError"
  | notDirectory => "NotADirectoryError"
  | isDirectory => "IsADirectoryError"
  | notExecutable | noMemory | nameTooLong | linkLoop => "OSError"

end Errno

/-- The kinds of failure that bundling itself reports. -/
inductive BundleFault.Kind where
  | general
  | entryNotFound
  | toolchain
  | protocol
  | install
  | network
  | compile
  deriving DecidableEq, Repr

/-- A failure of bundling, with what is known of its reasons. -/
structure BundleFault where
  kind : BundleFault.Kind
  message : String
  /-- The type that was attached where the failure arose; it needn't be the name of one. -/
  attached : Option Json := none
  diagnostics : List Diagnostic := []
  /-- The packages that were asked for. -/
  packages : List String := []
  /-- What the package manager printed. -/
  output : String := ""

namespace BundleFault

def Kind.label : Kind → String
  | general => "BundleError"
  | entryNotFound => "EntryNotFoundError"
  | toolchain => "ToolchainError"
  | protocol => "DriverProtocolError"
  | install => "InstallError"
  | network => "NetworkError"
  | compile => "CompileError"

def Kind.ofLabel? (s : String) : Option Kind :=
  [general, entryNotFound, toolchain, protocol, install, network, compile].find? fun k => k.label == s

/-- The attached type; a network failure has one from the start. -/
def explicitType (b : BundleFault) : Option Json :=
  b.attached.or (if b.kind = .network then some (.str ErrorType.network.name) else none)

/-- The package manager's output is part of the report of a failed install. -/
def reportsOutput (b : BundleFault) : Bool :=
  b.kind = .install || b.kind = .network

end BundleFault

/-- Why an operation gives up. -/
inductive Failure where
  /-- A specifier that is no string but of the kind named. -/
  | specifierNotText (kind : String)
  | specifierBlank
  /-- A report is asked for with a type that isn't one, which is shown. -/
  | unknownType (given : String)
  /-- A rule gives a type that isn't one, which is shown. -/
  | unknownRuleType (given : String)
  | manifestName
  | manifestNotObject
  | malformedJson
  /-- A value or its text is too much to be converted. -/
  | excess (e : Json.Excess)
  /-- A timeout of the settings, by name. -/
  | timeoutNotPositive (setting : String)
  /-- A whole number that is too large for a double. -/
  | tooLargeForDouble
  /-- A whole number that is too large for a count. -/
  | tooLargeForCount
  /-- A pass that there isn't, as it is shown. -/
  | unknownPass (given : String)
  | mismatch (m : Mismatch)
  | homeUnknown
  | linkLoop (path : String)
  | nulInPath
  /-- A call without even the name of a program. -/
  | nothingToStart
  /-- The name of a variable that no environment can hold. -/
  | variableName
  /-- The file system refuses something, with the files that it names. -/
  | os (errno : Errno) (files : List String)
  /-- A process was stopped when its time had passed. A time that passes is no longer than a double can say, and so
  it can always be shown. -/
  | expired (argv : List String) (seconds : Quantity)
  | lockRefused (path : String)
  | interrupted
  | bundle (fault : BundleFault)
  /-- A failure of another origin: the word for its kind, and what it says. -/
  | foreign (label text : String)

namespace Failure

def label : Failure → String
  | specifierNotText _ | specifierBlank | unknownType _ | unknownRuleType _ | manifestName | manifestNotObject
  | timeoutNotPositive _ | tooLargeForCount | unknownPass _ | nulInPath
  | variableName => "ValueError"
  | malformedJson => "JSONDecodeError"
  | nothingToStart => "IndexError"
  | tooLargeForDouble => "OverflowError"
  | mismatch _ => "TypeError"
  | homeUnknown | linkLoop _ => "RuntimeError"
  | excess e => e.label
  | os e _ => e.label
  | expired .. => "TimeoutExpired"
  | lockRefused _ => "Timeout"
  | interrupted => "KeyboardInterrupt"
  | bundle b => b.kind.label
  | foreign l _ => l

/-- The files that a system error names: its third argument, and with it its fifth. -/
def systemFiles : List Json → List Json
  | file :: rest => if file.isNull then [] else file :: (rest.drop 1).filter (!·.isNull)
  | [] => []

/-- What a failure of another origin says: its only argument, or all of them in parentheses; a system error
with a code, a text and at most three more arguments has a form of its own. -/
def foreignText (b : Json.Bounds) (label : String) (args : List Json) : Except Json.Excess String :=
  match label, args with
  | _, [] => .ok ""
  | "KeyError", [a] => a.inspectWithin b
  | _, [a] => a.displayWithin b
  | "OSError", code :: text :: rest =>
    if 3 < rest.length then argumentList args
    else do
      let code ← code.displayWithin b
      let text ← text.displayWithin b
      let files ← (systemFiles rest).mapM (Json.inspectWithin b)
      return "[Errno " ++ code ++ "] " ++ text ++ (if files.isEmpty then "" else ": " ++ " -> ".intercalate files)
  | _, args => argumentList args
where
  /-- The parentheses take a level, as a list does. -/
  argumentList (args : List Json) : Except Json.Excess String :=
    Json.converted .shown b (.arr args) ("(" ++ ", ".intercalate (Json.inspectItems args) ++ ")")

/-- The codes of operations that would have to wait. -/
def waitCodes : List Int := [11, 114, 115]

/-- The arguments that a system error keeps. With the code of an operation that would have to wait, a number in
the third place is the count of what was done, and no file. -/
def keptArgs (label : String) (args : List Json) : Except Failure (List Json) :=
  match label, args with
  | "OSError", code@(.num (.int n)) :: text :: third :: rest =>
    if waitCodes.contains n && rest.length ≤ 2 then
      match third with
      | .num (.real _) => .error (.mismatch (.notInteger third.typeName))
      | .num (.int k) => if -Int.pow 2 63 ≤ k ∧ k < Int.pow 2 63 then .ok [code, text] else .error .tooLargeForCount
      | .bool _ => .ok [code, text]
      | _ => .ok args
    else .ok args
  | _, _ => .ok args

/-- A failure of another origin, of which it's only told what it says. -/
def ofForeign (b : Json.Bounds) (label : String) (args : List Json) : Except Failure Failure := do
  let args ← keptArgs label args
  return .foreign label (← (foreignText b label args).mapError excess)

def message : Failure → String
  | specifierNotText kind => "package specifier: expected str, got " ++ kind
  | specifierBlank => "package specifier: must be a non-empty string"
  | unknownType given =>
    "ErrorEnvelope.type: expected one of " ++ Text.quotedList ErrorType.names ++ ", got " ++ given
  | unknownRuleType given => "Rule.error_type: unknown type " ++ given
  | manifestName => "manifest: name must be a non-empty string"
  | manifestNotObject => "package.json: expected JSON object"
  | malformedJson => "malformed JSON"
  | excess e => e.message
  | timeoutNotPositive setting => "BundlerConfig." ++ setting ++ ": must be positive"
  | tooLargeForDouble => "int too large to convert to float"
  | tooLargeForCount => "cannot fit 'int' into an index-sized integer"
  | unknownPass given =>
    "driver kind: expected one of " ++ Text.quotedList Pass.names ++ ", got " ++ given
  | mismatch m => m.message
  | homeUnknown => "Could not determine home directory."
  | linkLoop path => "Symlink loop from " ++ Text.quoted path
  | nulInPath => "embedded null byte"
  | nothingToStart => "list index out of range"
  | variableName => "illegal environment variable name"
  | os e files =>
    "[Errno " ++ toString e.code ++ "] " ++ e.text ++
      (if files.isEmpty then "" else ": " ++ " -> ".intercalate (files.map Text.quoted))
  | expired argv seconds =>
    "Command '" ++ Text.quotedList argv ++ "' timed out after " ++ seconds.toJson.inspect ++ " seconds"
  | lockRefused path => "The file lock '" ++ path ++ "' could not be acquired."
  | interrupted => ""
  | bundle b => b.message
  | foreign _ text => text

/-- The single values of a value that holds some: the items of a list, the characters of a text, the keys of
an object. -/
def itemsOf : Json → Except Failure (List Json)
  | .arr xs => .ok xs
  | .str s => .ok (s.toList.map fun c => .str (String.singleton c))
  | .obj fs => .ok (fs.map fun f => .str f.1)
  | v => .error (.mismatch (.notIterable v.typeName))

end Failure

end Bundler
