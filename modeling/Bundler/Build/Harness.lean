import Bundler.Disk.Path
import Bundler.Json.Writer
import Bundler.Text.Template

/-!
# The harness

The harness is the module that gets compiled: it imports the component and mounts its default export into
the element of the page. A default export is mounted in one of three ways (`Mount`). The harness is a template
whose slots are filled in, one of them with the component's path as a string literal (`Slot.value`).
-/

namespace Bundler

/-- How a default export is mounted: called as a component, shown as it is, or replaced by a notice. -/
inductive Mount where
  | component
  | element
  | missing
  deriving DecidableEq, Repr

namespace Mount

def all : List Mount :=
  [component, element, missing]

def name : Mount → String
  | component => "component"
  | element => "element"
  | missing => "missing"

/-- The statement that mounts. -/
def statement : Mount → String
  | component => "root.render(createElement(Component));"
  | element => "root.render(Component);"
  | missing => "root.render(createElement('p', \x7b style: PLACEHOLDER_STYLE \x7d, PLACEHOLDER));"

def branch (m : Mount) : String :=
  "    case " ++ Json.literal m.name ++ ":\n      " ++ m.statement ++ "\n      break;"

end Mount

namespace Harness

def noDefaultExport : String :=
  "No default export found. The TSX file must export a default React component."

/-- The element that the component is mounted into. -/
def elementId : String := "root"

/-- Where the page keeps what was mounted before. -/
def handleKey : String := "__terrariumRoot"

inductive Slot where
  | entry
  | notice
  | kind (m : Mount)
  | elementId
  | handleKey
  | branches

namespace Slot

/-- The names that have a value. -/
def table : List (String × Slot) := [
  ("__ENTRY__", entry),
  ("__PLACEHOLDER__", notice),
  ("__COMPONENT__", kind .component),
  ("__ELEMENT__", kind .element),
  ("__MISSING__", kind .missing),
  ("__ROOT_ID__", elementId),
  ("__ROOT_KEY__", handleKey),
  ("__BRANCHES__", branches)]

def ofName? (name : List Char) : Option Slot :=
  (table.find? (·.1.toList == name)).map (·.2)

/-- What a slot is filled with for the component at a path. -/
def value (path : Path) : Slot → String
  | entry => Json.literal path.text
  | notice => Json.literal noDefaultExport
  | kind m => Json.literal m.name
  | elementId => Json.literal Harness.elementId
  | handleKey => Json.literal Harness.handleKey
  | branches => "\n".intercalate (Mount.all.map Mount.branch)

end Slot

def template : List String := [
  "import * as _Module from __ENTRY__;",
  "import \x7b createElement \x7d from 'react';",
  "import \x7b createRoot \x7d from 'react-dom/client';",
  "",
  "const Component = _Module.default;",
  "const PLACEHOLDER = __PLACEHOLDER__;",
  "const PLACEHOLDER_STYLE = \x7b color: '#888', fontFamily: 'system-ui', padding: '24px' \x7d;",
  "",
  "const mountKind =",
  "  typeof Component === 'function' ? __COMPONENT__",
  "  : Component !== undefined && Component !== null ? __ELEMENT__",
  "  : __MISSING__;",
  "",
  "const rootEl = document.getElementById(__ROOT_ID__);",
  "if (rootEl) \x7b",
  "  const previous = window[__ROOT_KEY__];",
  "  if (previous) previous.unmount();",
  "  rootEl.innerHTML = '';",
  "  const root = createRoot(rootEl);",
  "  window[__ROOT_KEY__] = root;",
  "  switch (mountKind) \x7b",
  "__BRANCHES__",
  "  \x7d",
  "\x7d"]

/-- The template as one text. -/
def templateText : List Char :=
  (template.map String.toList).flatMap (· ++ ['\n'])

open Text.Template in
/-- The harness of the component at an absolute path; none if the template has a slot that isn't in the table. -/
def build? (entry : Path) : Option String :=
  (fill? (fun name => (Slot.ofName? name).map fun s => (s.value entry).toList) templateText).map String.ofList

/-! ### Every slot has a value -/

open Text.Template

/-- Every slot of the text is in the table. -/
def Known (cs : List Char) : Prop :=
  ((pieces cs).all fun
    | .char _ => true
    | .slot name => (Slot.ofName? name).isSome) = true

instance (cs : List Char) : Decidable (Known cs) :=
  inferInstanceAs (Decidable (_ = true))

/-- The form in which a line of the template is decided fast. -/
theorem known_ofList {cs : List Char} (h : Known cs) : Known (String.ofList cs).toList := by
  rwa [String.toList_ofList]

theorem known_template : ∀ l ∈ template, Known l.toList := by
  unfold template
  repeat refine List.forall_mem_cons.2 ⟨known_ofList (by decide), ?_⟩
  exact List.forall_mem_nil _

theorem known_lines {ls : List (List Char)} (h : ∀ l ∈ ls, Known l) : Known (ls.flatMap (· ++ ['\n'])) := by
  induction ls with
  | nil => rfl
  | cons l ls ih =>
    obtain ⟨hl, hls⟩ := List.forall_mem_cons.1 h
    rw [List.flatMap_cons, List.append_assoc, List.singleton_append, Known, pieces_append_newline, List.all_append,
      List.all_cons, Bool.and_eq_true]
    exact ⟨hl, ih hls⟩

theorem isSome_build? (entry : Path) : (build? entry).isSome = true := by
  have hknown : Known templateText := known_lines (List.forall_mem_map.2 known_template)
  rw [build?, Option.isSome_map, fill?, isSome_filled?_iff]
  intro name hname
  rw [Option.isSome_map]
  exact List.all_eq_true.1 hknown _ hname

def text (entry : Path) : String :=
  (build? entry).get (isSome_build? entry)

end Harness

end Bundler
