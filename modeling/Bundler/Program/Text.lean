import Bundler.Json.Reader
import Bundler.Json.Writer
import Bundler.Report.Failure
import Bundler.Text.Blank
import Bundler.Text.Line
import Bundler.Text.Search

/-!
# The programs that node runs

Each pass hands node a program, line by line: a first line that names the pass, the imports, the line with
the configuration as a JSON literal, and then lines that are the same for every configuration. The literal
is a single line whatever the configuration holds. `Program.passName?` and `Program.config?` read name and
configuration back.
-/

namespace Bundler.Program

/-- What the first line says before the name of the pass. -/
def marker : String := "// terrarium-driver: "

def imports : List String := [
  "import * as fs from 'node:fs';",
  "import * as path from 'node:path';",
  ""]

/-- What the line with the configuration says before it. -/
def configLead : String := "const CONFIG = "

def configLine (config : Json) : String :=
  configLead ++ config.write ++ ";"

/-- Which packages are installed, and how the answer is given. -/
def helpers : List String := [
  "",
  "function packageName(specifier) \x7b",
  "  if (specifier.startsWith('@')) \x7b",
  "    const name = specifier.split('/').slice(0, 2).join('/');",
  "    const at = name.indexOf('@', 1);",
  "    return at > 0 ? name.slice(0, at) : name;",
  "  \x7d",
  "  return specifier.split('/')[0].split('@')[0];",
  "\x7d",
  "",
  "function isInstalled(specifier) \x7b",
  "  return fs.existsSync(path.join(CONFIG.nodeModules, ...packageName(specifier).split('/')));",
  "\x7d",
  "",
  "function report(answer) \x7b",
  "  process.stdout.write(JSON.stringify(answer));",
  "\x7d"]

def discoverBody : List String := [
  "import * as esbuild from 'esbuild';",
  "",
  "async function main() \x7b",
  "  const specifiers = [];",
  "  const detectMissing = \x7b",
  "    name: 'terrarium-detect-missing',",
  "    setup(build) \x7b",
  "      build.onResolve(\x7b filter: /^[^./]/ \x7d, (args) => \x7b",
  "        if (/^(node|https?|data|file):/i.test(args.path)) return undefined;",
  "        if (isInstalled(args.path)) return undefined;",
  "        specifiers.push(args.path);",
  "        return \x7b path: args.path, external: true \x7d;",
  "      \x7d);",
  "    \x7d,",
  "  \x7d;",
  "  await esbuild.build(\x7b",
  "    entryPoints: [CONFIG.entry],",
  "    bundle: true,",
  "    format: 'esm',",
  "    jsx: 'automatic',",
  "    jsxImportSource: 'react',",
  "    write: false,",
  "    outfile: 'out.js',",
  "    plugins: [detectMissing],",
  "    nodePaths: [CONFIG.nodeModules],",
  "    logLevel: 'silent',",
  "  \x7d);",
  "  return \x7b specifiers \x7d;",
  "\x7d"]

def finalizeBody : List String := [
  "import * as esbuild from 'esbuild';",
  "",
  "async function main() \x7b",
  "  const result = await esbuild.build(\x7b",
  "    stdin: \x7b",
  "      contents: CONFIG.harness,",
  "      resolveDir: CONFIG.resolveDir,",
  "      sourcefile: CONFIG.sourcefile,",
  "      loader: 'tsx',",
  "    \x7d,",
  "    bundle: true,",
  "    format: 'iife',",
  "    platform: 'browser',",
  "    jsx: 'automatic',",
  "    jsxImportSource: 'react',",
  "    write: false,",
  "    outfile: 'out.js',",
  "    nodePaths: [CONFIG.nodeModules],",
  "    minify: false,",
  "    sourcemap: false,",
  "    logLevel: 'silent',",
  "  \x7d);",
  "  if (result.errors.length > 0) \x7b",
  "    const err = new Error('Build failed with ' + result.errors.length + ' error(s)');",
  "    err.errors = result.errors;",
  "    throw err;",
  "  \x7d",
  "  if (result.outputFiles.length !== 1) \x7b",
  "    throw new Error('Expected exactly one output file, got ' + result.outputFiles.length);",
  "  \x7d",
  "  return \x7b text: result.outputFiles[0].text \x7d;",
  "\x7d"]

def stylesBody : List String := [
  "import \x7b createGenerator \x7d from '@unocss/core';",
  "import \x7b presetUno \x7d from '@unocss/preset-uno';",
  "",
  "async function main() \x7b",
  "  const generator = await createGenerator(\x7b presets: [presetUno()] \x7d);",
  "  const \x7b css \x7d = await generator.generate(CONFIG.corpus, \x7b preflights: true \x7d);",
  "  const resetPath = path.join(CONFIG.nodeModules, '@unocss', 'reset', 'tailwind.css');",
  "  const reset = fs.readFileSync(resetPath, 'utf8');",
  "  return \x7b css: reset + '\\n' + css \x7d;",
  "\x7d"]

/-- What a pass does. -/
def body : Pass → List String
  | .discover => discoverBody
  | .finalize => finalizeBody
  | .styles => stylesBody

/-- One answer for success and one for failure. -/
def ending : List String := [
  "main().then(",
  "  (result) => report(\x7b ok: true, ...result \x7d),",
  "  (err) => \x7b",
  "    report(\x7b",
  "      ok: false,",
  "      message: String((err && err.message) || err),",
  "      errors: (err && Array.isArray(err.errors)) ? err.errors : [],",
  "    \x7d);",
  "    process.exitCode = 1;",
  "  \x7d,",
  ");"]

def lines (p : Pass) (config : Json) : List String :=
  (marker ++ p.name) :: imports ++ configLine config :: helpers ++ "" :: body p ++ "" :: ending

/-- Every line with its line end. -/
def ofLines (ls : List String) : String :=
  String.join (ls.map (· ++ "\n"))

/-- The program of a pass. -/
def text (p : Pass) (config : Json) : String :=
  ofLines (lines p config)

/-- The program of the pass that a value names. There is none if the configuration is too much to be written, which one
of texts alone never is. -/
def ofJson (b : Json.Bounds) (kind config : Json) : Except Failure String := do
  match kind with
  | .str s =>
    match Pass.ofName? s with
    | some p =>
      let _ ← (config.encode b).mapError .excess
      return text p config
    | none => unknown
  | .arr _ | .obj _ => throw (.mismatch (.notName kind.typeName))
  | _ => unknown
where
  unknown : Except Failure String := do
    throw (.unknownPass (← (kind.inspectWithin b).mapError .excess))

/-- The name on the first line of a program. -/
def passName? (program : String) : Option String :=
  (Text.after? marker.toList (Text.firstLine program.toList)).map fun cs => String.ofList (Text.trim cs)

/-- The configuration of a program. -/
def config? (program : String) : Option Json := do
  let line ← (Text.pieces '\n' program).find? fun l => configLead.toList.isPrefixOf l.toList
  let rest ← Text.after? configLead.toList line.toList
  Json.parse? (String.ofList rest.dropLast)

end Bundler.Program
