import Bundler.Proofs.Delivering
import Bundler.Proofs.Following
import Bundler.Proofs.Lodging

/-!
# The package manager that goes with node

The package manager is looked for with the directory of node put in front of the search path, as its first entry
(`SearchPath.find?_behind`). So if node's own directory has one then it's that one, and otherwise the one that the
search path yields without that directory (`Toolchain.Pairs`). Every call of a run is one of the two programs that were
found together, in an environment that differs in the search path alone (`Run.run_pairs`).
-/

namespace Bundler

/-! ### Search paths -/

/-- What stands before a separator is the first piece. -/
theorem Text.pieces_append_sep {sep : Char} {first : String} (h : sep ∉ first.toList) (rest : String) :
    pieces sep (first ++ String.singleton sep ++ rest) = first :: pieces sep rest := by
  have hlist : (first ++ String.singleton sep ++ rest).toList = first.toList ++ sep :: rest.toList := by simp
  unfold pieces
  rw [hlist, List.splitOn_append_cons_self_of_not_mem h, List.map_cons, String.ofList_toList]

namespace Path

theorem ne_empty_of_isPart {s : String} (h : isPart s = true) : s ≠ "" := by
  rintro rfl
  exact absurd h (by decide)

/-- A text that ends with a part doesn't end with a slash. -/
theorem not_slash_suffix {before s : String} (hs : isPart s = true) (hslash : '/' ∉ s.toList) :
    "/".toList.isSuffixOf (before ++ s).toList = false := by
  obtain hnil | ⟨cs, c, hcs⟩ := List.eq_nil_or_concat s.toList
  · exact absurd (String.toList_eq_nil_iff.1 hnil) (ne_empty_of_isPart hs)
  · rw [List.concat_eq_append] at hcs
    rw [Bool.eq_false_iff, ne_eq, List.isSuffixOf_iff_suffix, String.toList_append, hcs]
    rintro ⟨xs, hxs⟩
    rw [← List.append_assoc] at hxs
    have hc : '/' = c := by simpa using (List.append_inj' hxs rfl).2
    exact hslash (by rw [hcs, hc]; simp)

/-- The text of a path that isn't bare ends with its last part. -/
theorem exists_text_eq {p : Path} (hp : p.parts ≠ []) : ∃ before s, s ∈ p.parts ∧ p.text = before ++ s := by
  obtain ⟨front, s, hparts⟩ := List.eq_nil_or_concat p.parts |>.resolve_left hp
  rw [List.concat_eq_append] at hparts
  have hbelow : p = below ⟨p.root, front⟩ [s] := by rw [below, ← hparts]
  refine ⟨if front = [] then p.root.text else (Path.mk p.root front).text ++ "/", s, by simp [hparts], ?_⟩
  split
  · next hfront => rw [text_eq (by simp [hp]), hparts, hfront, List.nil_append, String.intercalate_singleton]
  · next hfront =>
    conv_lhs => rw [hbelow, text_below hfront (by simp), String.intercalate_singleton]

/-- What a search path makes of a directory and a name is the directory's entry of that name. -/
theorem ofString_candidate {p : Path} (hp : p.Proper) (habsolute : p.isAbsolute = true) {name : String}
    (hname : isPart name = true) (hslash : '/' ∉ name.toList) :
    ofString (SearchPath.candidate p.text name) = p.child name := by
  have hchild : p.child name = p.below [name] := by rw [child_of_noSlash p hslash]; simp [hname]
  have hroot : p.root ≠ .none := by simpa [isAbsolute] using habsolute
  have htext : SearchPath.candidate p.text name = (p.child name).text := by
    unfold SearchPath.candidate
    rw [hchild]
    by_cases hparts : p.parts = []
    · -- the root's text ends with a slash
      rw [text_eq (by simp [hroot]), text_eq (by simp [below, hroot])]
      simp only [below, hparts, List.nil_append, String.intercalate_nil, String.intercalate_singleton,
        String.append_empty]
      cases hp' : p.root with
      | none => exact absurd hp' hroot
      | _ => rfl
    · obtain ⟨before, s, hs, hbefore⟩ := exists_text_eq hparts
      have hempty : p.text ≠ "" := by simp [hbefore, ne_empty_of_isPart (hp.isPart s hs)]
      have hend : "/".toList.isSuffixOf p.text.toList = false := by
        rw [hbefore]
        exact not_slash_suffix (hp.isPart s hs) (hp.noSlash s hs)
      rw [if_neg (by simpa using hempty), if_neg (by rw [hend]; exact Bool.false_ne_true),
        text_below hparts (by simp), String.intercalate_singleton]
  rw [htext, (hp.child name).ofString_text]

end Path

namespace SearchPath

variable {h : Host} {name : String}

/-- The program is in the first entry of the search path that has one of its name. -/
def Yields (h : Host) (search name : String) (p : Path) : Prop :=
  ∃ before dir after, Text.pieces ':' search = before ++ dir :: after ∧ p = Path.ofString (candidate dir name) ∧
    isProgram h p = true ∧ ∀ d ∈ before, isProgram h (Path.ofString (candidate d name)) = false

theorem find?_eq {search : String} (hsearch : search ≠ "") : find? h search name =
    ((Text.pieces ':' search).find? fun dir => isProgram h (Path.ofString (candidate dir name))).map
      fun dir => Path.ofString (candidate dir name) := by
  unfold find?
  rw [if_neg (by simpa using hsearch), List.find?_map, Function.comp_def]

theorem find?_eq_some_iff {search : String} (hsearch : search ≠ "") {p : Path} :
    find? h search name = some p ↔ Yields h search name p := by
  rw [find?_eq hsearch, Option.map_eq_some_iff]
  simp only [List.find?_eq_some_iff_append, Bool.not_eq_true']
  constructor
  · rintro ⟨dir, ⟨hprogram, before, after, hpieces, hbefore⟩, hp⟩
    exact ⟨before, dir, after, hpieces, hp.symm, hp ▸ hprogram, hbefore⟩
  · rintro ⟨before, dir, after, hpieces, hp, hprogram, hbefore⟩
    exact ⟨dir, ⟨hp ▸ hprogram, before, after, hpieces, hbefore⟩, hp.symm⟩

theorem find?_of_same {h' : Host} (hh : h.Same h') (search name : String) :
    find? h' search name = find? h search name := by
  obtain ⟨lines, rfl⟩ := hh
  rfl

/-- A directory in front of a search path is looked at first. -/
theorem find?_behind {dir rest : String} (hcolon : ':' ∉ dir.toList) (hrest : rest ≠ "") :
    find? h (dir ++ ":" ++ rest) name =
      if isProgram h (Path.ofString (candidate dir name)) then some (Path.ofString (candidate dir name))
      else find? h rest name := by
  have hpieces : Text.pieces ':' (dir ++ ":" ++ rest) = dir :: Text.pieces ':' rest :=
    Text.pieces_append_sep hcolon rest
  rw [find?_eq (by simp), find?_eq hrest, hpieces, List.find?_cons]
  cases isProgram h (Path.ofString (candidate dir name)) <;> rfl

end SearchPath

/-! ### Toolchains -/

namespace Toolchain

/-- The search path without the directory of node. -/
def previous (env : Environment) : String :=
  (env.nonempty? "PATH").getD "/usr/bin:/bin"

theorem previous_ne_empty (env : Environment) : previous env ≠ "" := by
  unfold previous Environment.nonempty?
  cases hpath : (env.get? "PATH").filter (!·.isEmpty) with
  | none => decide
  | some path => simpa using (Option.filter_eq_some_iff.1 hpath).2

theorem get?_environment (node : Path) (env : Environment) :
    (environment node env).get? "PATH" = some (node.parent.text ++ ":" ++ previous env) :=
  Environment.get?_set_self "PATH" _ env

theorem get?_environment_of_ne (node : Path) (env : Environment) {name : String} (h : name ≠ "PATH") :
    (environment node env).get? name = env.get? name :=
  Environment.get?_set_of_ne h _ env

/-- What is found together with node: the package manager in its directory, or else the one that the search path yields
without that directory. -/
structure Pairs (h : Host) (node : Path) (found : Except Failure Toolchain) : Prop where
  beside : SearchPath.isProgram h (node.parent.child "npm") = true →
    found = .ok ⟨node, node.parent.child "npm", environment node h.env⟩
  elsewhere : SearchPath.isProgram h (node.parent.child "npm") = false → ∀ npm,
    found = .ok ⟨node, npm, environment node h.env⟩ ↔ SearchPath.Yields h (previous h.env) "npm" npm
  nowhere : (∃ b, found = .error (.bundle b) ∧ b.kind = .toolchain) ↔
    SearchPath.isProgram h (node.parent.child "npm") = false ∧ ∀ npm, ¬SearchPath.Yields h (previous h.env) "npm" npm
  ends : (∃ npm, found = .ok ⟨node, npm, environment node h.env⟩) ∨
    ∃ b, found = .error (.bundle b) ∧ b.kind = .toolchain

variable {h h₁ : Host} {node : Path}

/-- The package manager is looked for in the directory of node first. -/
theorem find?_npm (hproper : node.Proper) (habsolute : node.parent.isAbsolute = true)
    (hcolon : ':' ∉ node.parent.text.toList) :
    SearchPath.find? h (node.parent.text ++ ":" ++ previous h.env) "npm" =
      if SearchPath.isProgram h (node.parent.child "npm") then some (node.parent.child "npm")
      else SearchPath.find? h (previous h.env) "npm" := by
  have hparent : node.parent.Proper :=
    ⟨fun s hs => hproper.isPart s (List.dropLast_subset _ hs),
      fun s hs => hproper.noSlash s (List.dropLast_subset _ hs)⟩
  rw [SearchPath.find?_behind hcolon (previous_ne_empty h.env),
    Path.ofString_candidate hparent habsolute (by decide) (by decide)]

theorem locateNpm_run (node : Path) (h : Host) : (locateNpm node (environment node h.env)).run h =
    (((SearchPath.find? h (node.parent.text ++ ":" ++ previous h.env) "npm").map Except.ok).getD
      (.error (fault ("npm not found next to " ++ node.text))), h) := by
  have hsearch : (((environment node h.env).get? "PATH").or (h.env.get? "PATH")).getD SearchPath.standard =
      node.parent.text ++ ":" ++ previous h.env := by
    rw [get?_environment]
    rfl
  unfold locateNpm
  rw [run_get_bind]
  dsimp only
  rw [hsearch]
  cases SearchPath.find? h (node.parent.text ++ ":" ++ previous h.env) "npm" <;> rfl

/-- What is found is node, which was located, with the package manager. -/
theorem discover_run {explicit : Option Path} (hnode : (locateNode explicit none).run h = (.ok node, h₁)) :
    ((discover explicit).run h).1 =
      ((SearchPath.find? h (node.parent.text ++ ":" ++ previous h.env) "npm").map fun npm =>
        Except.ok ⟨node, npm, environment node h.env⟩).getD
        (.error (fault ("npm not found next to " ++ node.text))) := by
  have hsame := looks_locateNode explicit none h
  rw [wp_of_run hnode] at hsame
  obtain ⟨lines, rfl⟩ := hsame
  unfold discover
  rw [run_bind_of_ok hnode, run_get_bind]
  dsimp only
  have hnpm := locateNpm_run node { h with log := lines }
  -- the log doesn't matter to the search
  change _ = (((SearchPath.find? h (node.parent.text ++ ":" ++ previous h.env) "npm").map Except.ok).getD _, _) at hnpm
  cases hfind : SearchPath.find? h (node.parent.text ++ ":" ++ previous h.env) "npm" with
  | none =>
    rw [hfind] at hnpm
    exact congrArg Prod.fst (run_bind_of_error hnpm _)
  | some npm =>
    rw [hfind] at hnpm
    exact congrArg Prod.fst (run_bind_of_ok hnpm)

theorem discover_pairs {explicit : Option Path} (hexplicit : ∀ p, explicit = some p → p.Proper)
    (hnode : (locateNode explicit none).run h = (.ok node, h₁)) (habsolute : node.parent.isAbsolute = true)
    (hcolon : ':' ∉ node.parent.text.toList) : Pairs h node ((discover explicit).run h).1 := by
  have hproper : node.Proper := by
    have hyields := yields_locateNode hexplicit h
    rwa [wp_of_run hnode] at hyields
  have hyields : ∀ npm, SearchPath.find? h (previous h.env) "npm" = some npm ↔
      SearchPath.Yields h (previous h.env) "npm" npm := fun _ => SearchPath.find?_eq_some_iff (previous_ne_empty h.env)
  rw [discover_run hnode, find?_npm hproper habsolute hcolon]
  cases hbeside : SearchPath.isProgram h (node.parent.child "npm") with
  | true =>
    rw [if_pos rfl]
    refine ⟨fun _ => rfl, fun hno => ?_, iff_of_false (fun ⟨_, hfound, _⟩ => nomatch hfound) fun hno => ?_,
      .inl ⟨_, rfl⟩⟩
    · nomatch hbeside.symm.trans hno
    · nomatch hbeside.symm.trans hno.1
  | false =>
    rw [if_neg Bool.false_ne_true]
    refine ⟨fun hyes => ?_, fun _ npm => ?_, ?_, ?_⟩
    · nomatch hbeside.symm.trans hyes
    · rw [← hyields]
      cases SearchPath.find? h (previous h.env) "npm" with
      | none => exact iff_of_false nofun nofun
      | some npm' => exact ⟨fun hfound => by cases hfound; rfl, fun hsame => by cases hsame; rfl⟩
    · simp only [← hyields, hbeside, true_and]
      cases SearchPath.find? h (previous h.env) "npm" with
      | none => exact iff_of_true ⟨_, rfl, rfl⟩ nofun
      | some npm => exact iff_of_false (fun ⟨_, hfound, _⟩ => nomatch hfound) fun hnone => hnone npm rfl
    · cases SearchPath.find? h (previous h.env) "npm" with
      | none => exact .inr ⟨_, rfl, rfl⟩
      | some npm => exact .inl ⟨npm, rfl⟩

/-- A toolchain that is found is one of a node that is located. -/
theorem located_of_discover {explicit : Option Path} {t : Toolchain} (hfound : ((discover explicit).run h).1 = .ok t) :
    ∃ h₁, (locateNode explicit none).run h = (.ok t.node, h₁) ∧ t.env = environment t.node h.env := by
  rcases hnode : (locateNode explicit none).run h with ⟨f | node, h₁⟩
  · unfold discover at hfound
    rw [run_bind_of_error hnode] at hfound
    cases hfound
  · rw [discover_run hnode] at hfound
    cases hfind : SearchPath.find? h (node.parent.text ++ ":" ++ previous h.env) "npm" with
    | none =>
      rw [hfind] at hfound
      cases hfound
    | some npm =>
      rw [hfind] at hfound
      cases hfound
      exact ⟨h₁, rfl, rfl⟩

/-- The search path begins with the directory and goes on as before, and nothing else has changed. -/
structure Leads (dir : String) (base env : Environment) : Prop where
  path : env.get? "PATH" = some (dir ++ ":" ++ previous base)
  entries : Text.pieces ':' (dir ++ ":" ++ previous base) = dir :: Text.pieces ':' (previous base)
  others : ∀ name ≠ "PATH", env.get? name = base.get? name

theorem leads_environment (base : Environment) (hcolon : ':' ∉ node.parent.text.toList) :
    Leads node.parent.text base (environment node base) :=
  ⟨get?_environment node base, Text.pieces_append_sep hcolon _, fun _ => get?_environment_of_ne node base⟩

/-- The call is one of node or of the package manager, in the environment of the toolchain. -/
structure Starts (t : Toolchain) (c : Call) : Prop where
  env : c.env = some t.env
  program : (c.kind = .npm ∧ c.argv.head? = some t.npm.text) ∨ (c.kind ≠ .npm ∧ c.argv.head? = some t.node.text)

end Toolchain

theorem Workplace.Makes.starts {w : Workplace} {c : Call} (h : w.Makes c) : w.toolchain.Starts c := by
  cases h with
  | npm batch m => exact ⟨rfl, .inl ⟨rfl, rfl⟩⟩
  | pass p hfields m => exact ⟨rfl, .inr ⟨nofun, rfl⟩⟩

/-- All calls that are made are those of the toolchain. -/
abbrev Host.Employs (t : Toolchain) : Host → Host → Prop :=
  Host.Gains t.Starts

namespace Run

theorem employs_discovering (w : Workplace) (i : Installer) (resolved : Path) :
    Follows (Host.Employs w.toolchain) (discovering w i resolved) :=
  follows_discovering_of_missing (fun _ _ => Host.Same.gains) w
    (fun _ _ => gains_runPass w fun _ => ⟨rfl, .inr ⟨nofun, rfl⟩⟩) i resolved
    (gains_installMissing w (fun _ hc _ => hc.starts) i)

/-- No program is called before the toolchain was found on the host with the cache made ready, and then only those of
the toolchain. -/
def Employed (s : Settings) (h h' : Host) : Prop :=
  ∃ made, h'.calls = h.calls ++ made ∧ (made = [] ∨ ∃ h₁ t, ((Cache.ofSettings s).ensure.run h).2.Same h₁ ∧
    ((Toolchain.discover s.node).run h₁).1 = .ok t ∧ ∀ c ∈ made, t.Starts c)

theorem discover_of_workplace {s : Settings} {w : Workplace} {h h' : Host} (hw : (workplace s).run h = (.ok w, h')) :
    (Toolchain.discover s.node).run h = (.ok w.toolchain, h') := by
  unfold workplace at hw
  rcases hd : (Toolchain.discover s.node).run h with ⟨f | t, h₁⟩
  · rw [run_bind_of_error hd] at hw
    cases hw
  · rw [run_bind_of_ok hd] at hw
    cases hw
    rfl

theorem wp_steps_employed (s : Settings) (entry : Path) (h : Host) :
    wp (steps s entry) (fun _ h' => Employed s h h') (fun _ h' => Employed s h h') h := by
  refine wp_steps_of_workplace (fun _ _ hh => ⟨[], by rw [hh.calls, List.append_nil], .inl rfl⟩)
    fun resolved {w h₁ h₂} hensured hh₁ hrun => ?_
  have hh₂ := hh₁.trans ((wp_iff.1 (looks_workplace s h₁)).1 w h₂ hrun).alike
  have hemployed : ∀ {h'}, h₂.Employs w.toolchain h' → Employed s h h' := by
    rintro h' ⟨made, hmade, hstarts⟩
    refine ⟨made, by rw [hmade, hh₂.calls], .inr ⟨h₁, w.toolchain, hensured, ?_, hstarts⟩⟩
    rw [discover_of_workplace hrun]
  have hfollows : Follows (Host.Employs w.toolchain)
      (do let installer ← during .cacheReady (installBase w); discovering w installer resolved) :=
    .bind (.during (gains_installBase w fun _ hc _ => hc.starts) .cacheReady) fun installer =>
    employs_discovering w installer resolved
  exact wp_mono _ (hfollows.wp_and (wp_of_forall _ (fun _ _ => trivial) fun _ _ => trivial))
    (fun _ _ hall => hemployed hall.2) fun _ _ hall => hemployed hall.2

theorem outcome_employed (s : Settings) (entry : Json) (h : Host) : Employed s h (outcome s entry h).2 := by
  cases entry with
  | str entry =>
    have hwp := wp_iff.1 (wp_steps_employed s (Path.ofString entry) h)
    rcases ho : outcome s (.str entry) h with ⟨halt | x, h₁⟩
    · exact hwp.2 halt h₁ ho
    · exact hwp.1 x h₁ ho
  | _ => exact ⟨[], (List.append_nil _).symm, .inl rfl⟩

/-- The package manager is the one in the directory of node, or else the one that the search path yields, wherever node
was found. A run calls these two alone, in an environment whose search path begins with that directory. -/
theorem run_pairs : (∀ explicit h h₁ node, (∀ p, explicit = some p → p.Proper) →
      (Toolchain.locateNode explicit none).run h = (.ok node, h₁) → node.parent.isAbsolute = true →
      ':' ∉ node.parent.text.toList → Toolchain.Pairs h node ((Toolchain.discover explicit).run h).1) ∧
    ∀ s entry h, ∃ r h' made, (runJson s entry).run h = (.ok r, h') ∧ h'.calls = h.calls ++ made ∧
      (made = [] ∨ ∃ h₁ h₂ t, h.Alike h₁ ∧ ((Cache.ofSettings s).ensure.run h).2.Same h₁ ∧
        (Toolchain.locateNode s.node none).run h₁ = (.ok t.node, h₂) ∧
        ((Toolchain.discover s.node).run h₁).1 = .ok t ∧
        ∀ c ∈ made, t.Starts c ∧
          (':' ∉ t.node.parent.text.toList → Toolchain.Leads t.node.parent.text h.env t.env)) := by
  refine ⟨fun explicit h h₁ node hexplicit hnode => Toolchain.discover_pairs hexplicit hnode, fun s entry h => ?_⟩
  obtain ⟨r, h', made, hr, hcalls, houtcome, -⟩ := run_made s entry h
  obtain ⟨made', hcalls', hemployed⟩ := outcome_employed s entry h
  obtain rfl : made = made' := List.append_cancel_left (houtcome.symm.trans hcalls')
  refine ⟨r, h', made, hr, hcalls, hemployed.imp_right ?_⟩
  rintro ⟨h₁, t, hsame, hfound, hstarts⟩
  have hready : h.Alike ((Cache.ofSettings s).ensure.run h).2 :=
    Follows.of_stays (Cache.ofSettings s).quiet_ensure h
  have hh₁ : h.Alike h₁ := hready.trans hsame.alike
  obtain ⟨h₂, hnode, henv⟩ := Toolchain.located_of_discover hfound
  refine ⟨h₁, h₂, t, hh₁, hsame, hnode, hfound, fun c hc => ⟨hstarts c hc, fun hcolon => ?_⟩⟩
  rw [henv, hh₁.env]
  exact Toolchain.leads_environment h.env hcolon

section Foreign

/-- A host with two package managers, of which the first on the search path isn't next to node. -/
def foreign : Host where
  tree.entries := [(["bin"], .dir (.change 0)), (["bin", "npm"], .file "" true (.change 0)),
    (["opt"], .dir (.change 0)), (["opt", "node"], .file "" true (.change 0)),
    (["opt", "npm"], .file "" true (.change 0)), (["a.tsx"], .file "" false (.change 0))]
  env := [("HOME", "/home"), ("PATH", "/bin:/opt")]
  outcomes.npm := [.stops .missing]

/-- It's the one next to node, and a call has the directory of node in front. -/
theorem run_pairs_foreign : ((Toolchain.discover none).run foreign).1 = .ok ⟨⟨.one, ["opt", "node"]⟩,
      ⟨.one, ["opt", "npm"]⟩, Toolchain.environment ⟨.one, ["opt", "node"]⟩ foreign.env⟩ ∧
    ∃ c ∈ ((runJson { cacheDir := Path.ofString "/cache", styles := false } (.str "a.tsx")).run foreign).2.calls,
      ∃ env, c.env = some env ∧ Toolchain.Leads "/opt" foreign.env env := by
  have hnode : ∀ {h : Host}, SearchPath.find? h "/bin:/opt" "node" = some ⟨.one, ["opt", "node"]⟩ →
      h.env = foreign.env → (Toolchain.locateNode none none).run h = (.ok ⟨.one, ["opt", "node"]⟩, h) := by
    intro h hfind henv
    unfold Toolchain.locateNode
    rw [run_get_bind]
    have hpath : (h.env.get? "PATH").getD SearchPath.standard = "/bin:/opt" := by rw [henv]; rfl
    simp only [hpath, hfind]
    rfl
  have hnpm : (Path.mk .one ["opt", "node"]).parent.child "npm" = ⟨.one, ["opt", "npm"]⟩ :=
    Path.child_of_noSlash _ (by decide)
  have hdir : (Path.mk .one ["opt", "node"]).parent.text = "/opt" := rfl
  have hcolon : ':' ∉ (Path.mk .one ["opt", "node"]).parent.text.toList := by
    rw [hdir]
    decide
  obtain ⟨hpairs, hruns⟩ := run_pairs
  have hfound := hpairs none foreign foreign _ nofun (hnode (by decide +kernel) rfl) rfl hcolon
  refine ⟨hnpm ▸ hfound.beside (by decide +kernel), ?_⟩
  obtain ⟨r, h', made, hr, hcalls, hmade⟩ :=
    hruns { cacheDir := Path.ofString "/cache", styles := false } (.str "a.tsx") foreign
  have hsome : ((runJson { cacheDir := Path.ofString "/cache", styles := false } (.str "a.tsx")).run
      foreign).2.calls.length ≠ 0 := by decide +kernel
  rw [hr] at hsome ⊢
  obtain rfl | ⟨h₁, h₂, t, hh₁, hsame, hlocated, -, hstarts⟩ := hmade
  · exact absurd (congrArg List.length hcalls) hsome
  · obtain ⟨c, hc⟩ := List.exists_mem_of_length_pos (Nat.pos_of_ne_zero hsome)
    have hfind : SearchPath.find? ((Cache.mk (Path.ofString "/cache")).ensure.run foreign).2 "/bin:/opt" "node" =
        some ⟨.one, ["opt", "node"]⟩ := by decide +kernel
    rw [hnode ((SearchPath.find?_of_same hsame _ _).trans hfind) hh₁.env] at hlocated
    obtain ⟨hstart, hleads⟩ := hstarts c (by rw [hcalls] at hc; exact hc)
    rw [← Except.ok.inj (congrArg Prod.fst hlocated)] at hleads
    exact ⟨c, hc, t.env, hstart.env, hdir ▸ hleads hcolon⟩

end Foreign

end Run

end Bundler
