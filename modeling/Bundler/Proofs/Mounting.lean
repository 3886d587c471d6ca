import Mathlib.Data.List.Forall2
import Bundler.Proofs.Absence
import Bundler.Proofs.Comparing
import Bundler.Proofs.Embedding
import Bundler.Proofs.Following

/-!
# What the compiler is given

The harness is its template with the slots filled in, and of its lines only the first one is told by the component's
path (`Harness.build?_eq`). The lines are filled in one after the other, since no slot goes beyond its line, and the
value of a slot is written as it is. Of all the calls of a run there is one that may be the compiler's
(`Run.gains_compile`), and its configuration holds the harness.
-/

namespace Bundler

namespace Text.Template

variable {value? : List Char → Option (List Char)}

theorem filled?_append {ps qs : List Piece} {cs ds : List Char} (hps : filled? value? ps = some cs)
    (hqs : filled? value? qs = some ds) : filled? value? (ps ++ qs) = some (cs ++ ds) := by
  induction ps generalizing cs with
  | nil =>
    cases hps
    exact hqs
  | cons p ps ih =>
    cases p with
    | char c =>
      obtain ⟨cs, hcs, rfl⟩ := Option.map_eq_some_iff.1 hps
      rw [List.cons_append, filled?, ih hcs]
      rfl
    | slot name =>
      rw [filled?] at hps
      obtain ⟨value, hvalue, hps⟩ := Option.bind_eq_some_iff.1 hps
      obtain ⟨cs, hcs, hps⟩ := Option.bind_eq_some_iff.1 hps
      cases hps
      rw [List.cons_append, filled?, ih hcs, hvalue, List.append_assoc]
      rfl

theorem filled?_chars (cs : List Char) : filled? value? (cs.map .char) = some cs := by
  induction cs with
  | nil => rfl
  | cons c cs ih => rw [List.map_cons, filled?, ih]; rfl

theorem fill?_lines {ls filled : List (List Char)} (h : List.Forall₂ (fun l l' => fill? value? l = some l') ls filled) :
    fill? value? (ls.flatMap (· ++ ['\n'])) = some (filled.flatMap (· ++ ['\n'])) := by
  induction h with
  | nil => rfl
  | @cons l l' ls filled hl _ ih =>
    rw [List.flatMap_cons, List.flatMap_cons, List.append_assoc, List.singleton_append, List.append_assoc,
      List.singleton_append, fill?, pieces_append_newline]
    refine filled?_append hl ?_
    rw [filled?]
    exact congrArg (Option.map ('\n' :: ·)) ih

end Text.Template

namespace Harness

open Text.Template

/-- What the first line says before the path. -/
def importLead : String := "import * as _Module from "

def importLine (path : Path) : String :=
  importLead ++ Json.literal path.text ++ ";"

/-- The lines between the first one and the branches. -/
def front : List String := [
  "import \x7b createElement \x7d from 'react';",
  "import \x7b createRoot \x7d from 'react-dom/client';",
  "",
  "const Component = _Module.default;",
  "const PLACEHOLDER = \"No default export found. The TSX file must export a default React component.\";",
  "const PLACEHOLDER_STYLE = \x7b color: '#888', fontFamily: 'system-ui', padding: '24px' \x7d;",
  "",
  "const mountKind =",
  "  typeof Component === 'function' ? \"component\"",
  "  : Component !== undefined && Component !== null ? \"element\"",
  "  : \"missing\";",
  "",
  "const rootEl = document.getElementById(\"root\");",
  "if (rootEl) \x7b",
  "  const previous = window[\"__terrariumRoot\"];",
  "  if (previous) previous.unmount();",
  "  rootEl.innerHTML = '';",
  "  const root = createRoot(rootEl);",
  "  window[\"__terrariumRoot\"] = root;",
  "  switch (mountKind) \x7b"]

def branches : List String := [
  "    case \"component\":",
  "      root.render(createElement(Component));",
  "      break;",
  "    case \"element\":",
  "      root.render(Component);",
  "      break;",
  "    case \"missing\":",
  "      root.render(createElement('p', \x7b style: PLACEHOLDER_STYLE \x7d, PLACEHOLDER));",
  "      break;"]

def back : List String := [
  "  \x7d",
  "\x7d"]

/-- All lines but the first one. -/
def rest : List String :=
  front ++ branches ++ back

/-- A line on its own, in which no slot is. -/
def Still (cs : List Char) : Prop :=
  '\n' ∉ cs ∧ pieces cs = cs.map .char

instance (cs : List Char) : Decidable (Still cs) :=
  inferInstanceAs (Decidable (_ ∧ _))

/-- The form in which a line is decided fast. -/
theorem still_ofList {cs : List Char} (h : Still cs) : Still (String.ofList cs).toList := by
  rwa [String.toList_ofList]

theorem Still.fills {cs : List Char} {value? : List Char → Option (List Char)} (h : Still cs) :
    fill? value? cs = some cs := by
  rw [fill?, h.2, filled?_chars]

theorem Still.slot_notMem {cs name : List Char} (h : Still cs) : .slot name ∉ pieces cs := by
  rw [h.2]
  simp

/-- A literal in a line, character by character. -/
theorem written {before text after cs : List Char}
    (h : before ++ ('"' :: text.flatMap Json.Writer.char ++ '"' :: after) = cs) :
    String.ofList before ++ Json.literal (String.ofList text) ++ String.ofList after = String.ofList cs := by
  rw [← h, Json.literal, Json.Writer.string, String.toList_ofList, ← String.ofList_append, ← String.ofList_append]
  simp only [List.append_assoc, List.cons_append, List.nil_append]

/-- A line with one slot. -/
theorem fills_slot (path : Path) (s : Slot) (name : String) {before after cs : List Char} {l : String}
    (hl : String.ofList before ++ s.value path ++ String.ofList after = l)
    (h : pieces cs = before.map .char ++ .slot name.toList :: after.map .char)
    (hs : Slot.ofName? name.toList = some s) :
    fill? (fun name => (Slot.ofName? name).map fun s => (s.value path).toList) (String.ofList cs).toList =
      some l.toList := by
  rw [String.toList_ofList, fill?, h, ← hl, String.toList_append, String.toList_append, String.toList_ofList,
    String.toList_ofList, List.append_assoc]
  refine filled?_append (filled?_chars _) ?_
  rw [filled?, hs, filled?_chars]
  rfl

theorem fills_template (path : Path) : List.Forall₂
    (fun l l' => fill? (fun name => (Slot.ofName? name).map fun s => (s.value path).toList) l = some l')
    (template.map String.toList) ((importLine path :: front ++ Slot.branches.value path :: back).map String.toList) := by
  have hnotice : "const PLACEHOLDER = " ++ Json.literal noDefaultExport ++ ";" = front[4] := written (by decide)
  have hcomponent : "  typeof Component === 'function' ? " ++ Json.literal Mount.component.name ++ "" = front[8] :=
    written (by decide)
  have helement : "  : Component !== undefined && Component !== null ? " ++ Json.literal Mount.element.name ++ "" =
    front[9] := written (by decide)
  have hmissing : "  : " ++ Json.literal Mount.missing.name ++ ";" = front[10] := written (by decide)
  have hroot : "const rootEl = document.getElementById(" ++ Json.literal elementId ++ ");" = front[12] :=
    written (by decide)
  have hprevious : "  const previous = window[" ++ Json.literal handleKey ++ "];" = front[14] := written (by decide)
  have hkept : "  window[" ++ Json.literal handleKey ++ "] = root;" = front[18] := written (by decide)
  have hbranches : "" ++ Slot.branches.value path ++ "" = Slot.branches.value path := by
    rw [String.empty_append, String.append_empty]
  unfold template front back
  simp only [List.map_cons, List.map_nil, List.cons_append, List.nil_append]
  -- line by line, and so that each one is decided on its own
  refine .cons (fills_slot path .entry "__ENTRY__" rfl (by decide) rfl) ?_
  iterate 4 refine .cons (still_ofList (by decide)).fills ?_
  refine .cons (fills_slot path .notice "__PLACEHOLDER__" hnotice (by decide) rfl) ?_
  iterate 3 refine .cons (still_ofList (by decide)).fills ?_
  refine .cons (fills_slot path (.kind .component) "__COMPONENT__" hcomponent (by decide) rfl) ?_
  refine .cons (fills_slot path (.kind .element) "__ELEMENT__" helement (by decide) rfl) ?_
  refine .cons (fills_slot path (.kind .missing) "__MISSING__" hmissing (by decide) rfl) ?_
  refine .cons (still_ofList (by decide)).fills ?_
  refine .cons (fills_slot path .elementId "__ROOT_ID__" hroot (by decide) rfl) ?_
  refine .cons (still_ofList (by decide)).fills ?_
  refine .cons (fills_slot path .handleKey "__ROOT_KEY__" hprevious (by decide) rfl) ?_
  iterate 3 refine .cons (still_ofList (by decide)).fills ?_
  refine .cons (fills_slot path .handleKey "__ROOT_KEY__" hkept (by decide) rfl) ?_
  refine .cons (still_ofList (by decide)).fills ?_
  refine .cons (fills_slot path .branches "__BRANCHES__" hbranches (by decide) rfl) ?_
  iterate 2 refine .cons (still_ofList (by decide)).fills ?_
  exact .nil

theorem branches_eq (path : Path) :
    Slot.branches.value path ++ "\n" = String.join (branches.map (· ++ "\n")) := by
  show "\n".intercalate (Mount.all.map Mount.branch) ++ "\n" = _
  decide +kernel

/-- The template is filled in, and only the first line holds the path. -/
theorem build?_eq (path : Path) :
    build? path = some (String.join ((importLine path :: rest).map (· ++ "\n"))) := by
  have htext : String.join ((importLine path :: rest).map (· ++ "\n")) =
      String.join ((importLine path :: front ++ Slot.branches.value path :: back).map (· ++ "\n")) := by
    have hbranches : ∀ ls : List String, String.join (branches.map (· ++ "\n")) ++ String.join ls =
        String.join ((Slot.branches.value path ++ "\n") :: ls) := fun ls => by
      rw [← branches_eq path, String.join_cons]
    simp only [rest, List.cons_append, List.map_cons, List.map_append, String.join_cons, String.join_append,
      List.append_assoc, hbranches]
  have hlines : ∀ ls : List String, String.ofList ((ls.map String.toList).flatMap (· ++ ['\n'])) =
      String.join (ls.map (· ++ "\n")) := fun ls => by
    rw [← String.toList_inj, String.toList_ofList, String.toList_join, List.flatMap_map, List.flatMap_map]
    simp
  rw [build?, templateText, fill?_lines (fills_template path), htext, Option.map_some, hlines]

theorem still_rest : ∀ l ∈ rest, Still l.toList := by
  unfold rest front branches back
  simp only [List.cons_append, List.nil_append]
  repeat refine List.forall_mem_cons.2 ⟨still_ofList (by decide), ?_⟩
  exact List.forall_mem_nil _

theorem text_eq (path : Path) : text path = String.join ((importLine path :: rest).map (· ++ "\n")) :=
  Option.some_inj.1 ((Option.some_get (isSome_build? path)).trans (build?_eq path))

theorem newline_notMem_importLine (path : Path) : '\n' ∉ (importLine path).toList :=
  Json.newline_notMem_line path.text (by decide) (by decide)

/-- Whatever the path, it adds no line. -/
theorem pieces_text (path : Path) : Text.pieces '\n' (text path) = importLine path :: (rest ++ [""]) := by
  have hno : ∀ l ∈ importLine path :: rest, '\n' ∉ l.toList :=
    List.forall_mem_cons.2 ⟨newline_notMem_importLine path, fun l hl => (still_rest l hl).1⟩
  rw [text_eq, Text.pieces_lines hno, List.cons_append]

end Harness

/-! ### The program of the compiler -/

/-- The call's program is told this harness, and the directory that the component is in. -/
def Call.Mounts (c : Call) (q : Path) : Prop :=
  ∃ program config, c.input = some program ∧ Program.config? program = some config ∧
    config.field "harness" = .str (Harness.text q) ∧ config.field "resolveDir" = .str q.parent.text

theorem Script.mounts_config (w : Workplace) (q : Path) {c : Call}
    (hc : c.input = some (Program.text .finalize (config w (Harness.text q) q))) : c.Mounts q := by
  have hexact : (config w (Harness.text q) q).Exact := by
    refine .obj (by simp) ?_
    simp only [List.cons_append, List.nil_append, List.forall_mem_cons]
    exact ⟨.str _, .str _, .str _, .str _, List.forall_mem_nil _⟩
  refine ⟨_, config w (Harness.text q) q, hc, ?_, rfl, rfl⟩
  rw [Program.config?_text, Json.parse?_write hexact]

namespace Run

/-- If it's a call of the compiler, it's for the component at this path. -/
def Suits (q : Path) (c : Call) : Prop :=
  c.kind = .pass .finalize → c.Mounts q

theorem suits_of_kind {q : Path} {c : Call} (h : c.kind ≠ .pass .finalize) : Suits q c :=
  fun hkind => absurd hkind h

section Steps

variable (w : Workplace) (q : Path)

theorem gains_find : Follows (Host.Gains (Suits q)) (Missing.find w q) := by
  have hone : ∀ {c : Call} {h h' : Host}, h.Adds w.Makes [c] h' → c.kind = .pass .discover → h.Gains (Suits q) h' :=
    fun hadds hkind => hadds.gains (List.forall_mem_singleton.2 (suits_of_kind (by simp [hkind])))
  exact follows_of_wp fun h => wp_mono _ (wp_find w q h) (fun _ _ ⟨_, hadds, hkind, _⟩ => hone hadds hkind)
    fun _ _ ⟨_, _, hadds, hkind, _⟩ => hone hadds hkind

/-- The one step that calls the compiler. -/
theorem gains_compile : Follows (Host.Gains (Suits q)) (Script.compile w (Harness.text q) q) :=
  .bind (gains_runPass w fun _ _ => Script.mounts_config w q rfl) fun _ => .bind (.ofExcept _) fun _ =>
    .bind (.of_looks (fun _ _ => Host.Same.gains) (Action.looks_write _ _ _)) fun _ => .pure _

theorem gains_scripting (i : Installer) : Follows (Host.Gains (Suits q)) (scripting w i q) := by
  have hnote : ∀ l text, Follows (Host.Gains (Suits q)) (note l text) := follows_note fun _ _ => Host.Same.gains
  exact .bind (hnote _ _) fun _ => .bind (.during (gains_find w q) _) fun missing => .bind (hnote _ _) fun _ =>
    .bind (.during (gains_installMissing w (fun _ _ hc => suits_of_kind (by simp [hc])) i missing) _) fun _ =>
    .bind (hnote _ _) fun _ =>
      .bind (.during (gains_compile w q) _) fun _ => .bind (hnote _ _) fun _ => .pure _

end Steps

/-- Up to the first install nothing is called. -/
theorem gains_preparing (s : Settings) (entry : Path) : Follows (Host.Gains fun _ => False) (preparing s entry) := by
  have hensure : (Cache.ofSettings s).ensure.Stays (Host.Gains fun _ => False) :=
    (Cache.ofSettings s).stays_ensure Host.Same.gains fun _ => .nothing rfl
  exact follows_of_wp fun h =>
    wp_mono _ (wp_preparing Host.Same.gains s hensure entry h) (fun _ _ hh => hh) fun _ _ hf => hf.1

theorem wp_resolve {p : Path} (h : Host) : wp (Action.resolve p)
    (fun q h' => h' = h ∧ '\x00' ∉ p.text.toList ∧ h.tree.settle h.cwd p = .ok q) (fun _ _ => True) h := by
  unfold Action.resolve Action.checked
  split
  · trivial
  · next hnul =>
    rw [wp_bind, wp_pure, wp_bind, wp_get]
    cases hsettle : h.tree.settle h.cwd p with
    | error q => trivial
    | ok q => exact ⟨rfl, by simpa using hnul, rfl⟩

theorem wp_entryFile_resolves (entry : Path) (h : Host) :
    wp (entryFile entry) (fun q _ => Resolves h entry q) (fun _ _ => True) h := by
  unfold entryFile Action.expandHome
  rw [wp_bind, wp_bind, wp_get, wp_ofExcept]
  cases hp : entry.expandHome h.home with
  | error f => trivial
  | ok p =>
    dsimp only
    rw [wp_bind]
    refine wp_mono _ (wp_resolve h) ?_ fun _ _ _ => trivial
    rintro q _ ⟨rfl, hnul, hsettle⟩
    rw [wp_bind]
    refine wp_of_forall _ (fun b t => ?_) fun _ _ => trivial
    cases b with
    | false => trivial
    | true => exact ⟨p, hp, hnul, hsettle⟩

theorem wp_preparing_resolves (s : Settings) (entry : Path) (h : Host) : wp (preparing s entry)
    (fun x _ => ∃ h₁, (Cache.ofSettings s).ensure.run h = (.ok (), h₁) ∧ Resolves h₁ entry x.1)
    (fun _ _ => True) h := by
  have hensure : wp (Cache.ofSettings s).ensure (fun _ _ => True) (fun _ _ => True) h :=
    wp_of_forall _ (fun _ _ => trivial) fun _ _ => trivial
  unfold preparing
  rw [wp_bind, wp_during]
  refine wp_mono _ (wp_and_run hensure) (fun _ h₁ ⟨_, hr⟩ => ?_) fun _ _ _ => trivial
  rw [wp_bind, wp_advance, wp_bind, wp_during]
  -- what is logged in between changes nothing of what a path means
  refine wp_mono _ (wp_entryFile_resolves entry _) (fun q _ hq => ?_) fun _ _ _ => trivial
  rw [wp_bind, wp_during]
  exact wp_of_forall _ (fun _ _ => ⟨h₁, hr, hq⟩) fun _ _ => trivial

theorem steps_gain (s : Settings) (entry : Path) (h : Host) : ∃ made,
    ((steps s entry).run h).2.calls = h.calls ++ made ∧ ∀ c ∈ made, c.kind = .pass .finalize →
      ∃ h₁ q, (Cache.ofSettings s).ensure.run h = (.ok (), h₁) ∧ Resolves h₁ entry q ∧ c.Mounts q := by
  have hbefore := gains_preparing s entry h
  have hresolves := wp_preparing_resolves s entry h
  rw [steps_eq_preparing, run_bind]
  rcases hr : (preparing s entry).run h with ⟨halt | ⟨q, tools⟩, h₂⟩
  · rw [hr] at hbefore
    exact hbefore.mono fun c hc => hc.elim
  · rw [hr] at hbefore
    obtain ⟨h₁, hensure, hq⟩ := (wp_iff.1 hresolves).1 _ _ hr
    let w := placeOf s tools
    have hbehind : Follows (Host.Gains (Suits q))
        (during .cacheReady (installBase w) >>= fun i => scripting w i q >>= fun script => style w script) :=
      .bind (.during (gains_installBase w fun _ _ hc => suits_of_kind (by simp [hc])) _) fun i =>
        .bind (gains_scripting w q i) fun script => gains_style w (fun _ _ hc => suits_of_kind (by simp [hc])) script
    have hboth := Chained.trans (hbefore.mono fun c hc => hc.elim) (hbehind h₂)
    exact hboth.mono fun c hc hkind => ⟨h₁, q, hensure, hq, hc hkind⟩

/-- The harness of a component is there for every path. It's the same for all of them but for its first line, of which
the literal is read as the path, and it holds no more slots. Whenever the compiler is called, its program tells this
harness and the component's directory, for the path that the component's path means once the cache is ready. -/
theorem run_mounts :
    (∀ path : Path, Harness.build? path = some (Harness.text path) ∧
      Text.pieces '\n' (Harness.text path) =
        ("import * as _Module from " ++ Json.literal path.text ++ ";") :: (Harness.rest ++ [""]) ∧
      ∀ b, Json.parse b (Json.literal path.text) = .ok (.str path.text)) ∧
    (∀ l ∈ Harness.rest, ∀ name, .slot name ∉ Text.Template.pieces l.toList) ∧
    ∀ (s : Settings) (entry : Json) (h : Host), ∃ r h' made,
      (runJson s entry).run h = (.ok r, h') ∧ h'.calls = h.calls ++ made ∧
      ∀ c ∈ made, c.kind = .pass .finalize → ∃ text h₁ q, entry = .str text ∧
        (Cache.ofSettings s).ensure.run h = (.ok (), h₁) ∧ Resolves h₁ (Path.ofString text) q ∧
        ∃ program config, c.input = some program ∧ Program.config? program = some config ∧
          config.field "harness" = .str (Harness.text q) ∧ config.field "resolveDir" = .str q.parent.text := by
  refine ⟨fun path => ⟨(Option.some_get _).symm, Harness.pieces_text path,
    fun b => Json.parse_literal b _⟩,
    fun l hl name => (Harness.still_rest l hl).slot_notMem, fun s entry h => ?_⟩
  obtain ⟨r, h', hrun, hsame⟩ := runJson_same s entry h
  obtain ⟨lines, rfl⟩ := hsame
  cases entry with
  | str text =>
    obtain ⟨made, hcalls, hmade⟩ := steps_gain s (Path.ofString text) h
    refine ⟨r, _, made, hrun, hcalls, fun c hc hkind => ?_⟩
    obtain ⟨h₁, q, hensure, hq, hmounts⟩ := hmade c hc hkind
    exact ⟨text, h₁, q, rfl, hensure, hq, hmounts⟩
  | _ => exact ⟨r, _, [], hrun, (List.append_nil _).symm, List.forall_mem_nil _⟩

end Run

end Bundler
