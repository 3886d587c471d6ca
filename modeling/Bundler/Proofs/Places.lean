import Bundler.Proofs.Running
import Bundler.Proofs.Spelling

/-!
# Places that programs are told of

A program that a run calls works in the directory of the cache, and is told of places by the texts of paths that
the bundler has: where to install, where the packages are, and, in its first argument, which program it is. An
absolute path means the same to both. A relative one is a path from another directory for the program. Where no
link is on the way, it leads to the same place only if the directories are one above the levels that the path
climbs (`Tree.Agree`), which they aren't for a cache that is below the bundler's directory (`run_places`).
-/

namespace Bundler

namespace Tree

namespace Spot

/-- Where parts lead by their names alone. -/
def along (s : Spot) : List String → Spot
  | [] => s
  | c :: cs => along (if c = ".." then s.up else s.child c) cs

theorem location_up (s : Spot) (dir : Location) : s.up.location dir = (s.location dir).dropLast := by
  obtain ⟨above, names⟩ := s
  cases names with
  | nil =>
    cases above with
    | none => rfl
    | some n =>
      show dir.take (dir.length - (n + 1)) ++ [] = (dir.take (dir.length - n) ++ []).dropLast
      rw [List.append_nil, List.append_nil, List.dropLast_eq_take, List.take_take, List.length_take]
      congr 1
      omega
  | cons c cs =>
    cases above with
    | none => rfl
    | some n => exact (List.dropLast_append_of_ne_nil (List.cons_ne_nil c cs)).symm

theorem location_child (s : Spot) (name : String) (dir : Location) :
    (s.child name).location dir = s.location dir ++ [name] := by
  obtain ⟨above, names⟩ := s
  cases above with
  | none => rfl
  | some n => exact (List.append_assoc ..).symm

theorem isSome_above_along : ∀ {s : Spot} (parts : List String), s.above.isSome → (s.along parts).above.isSome
  | _, [], hs => hs
  | s, c :: cs, hs => by
    unfold along
    refine isSome_above_along cs ?_
    split
    · unfold up
      split
      · simpa using hs
      · exact hs
    · exact hs

end Spot

/-- Where a relative path leads by its names alone. -/
def spotOf (p : Path) : Spot :=
  (⟨some 0, []⟩ : Spot).along p.parts

/-- The levels above its start that a relative path climbs. -/
def climb (p : Path) : Nat :=
  (spotOf p).above.getD 0

theorem location_spotOf (p : Path) (dir : Location) :
    (spotOf p).location dir = dir.take (dir.length - climb p) ++ (spotOf p).names := by
  obtain ⟨n, hn⟩ := Option.isSome_iff_exists.1 (Spot.isSome_above_along (s := ⟨some 0, []⟩) p.parts rfl)
  have habove : (spotOf p).above = some n := hn
  unfold climb Spot.location
  rw [habove]
  rfl

/-- No link is on the way from the directory along the parts. -/
def Clear (t : Tree) : Location → List String → Prop
  | _, [] => True
  | dir, c :: cs =>
    if c = ".." then t.Clear dir.dropLast cs
    else (∀ target, t.get? (dir ++ [c]) ≠ some (.link target)) ∧ t.Clear (dir ++ [c]) cs

/-- Without a link on the way, a walk ends where the names lead. -/
theorem walkFrom_of_clear {t : Tree} {last : LastPart} {enter : Location → List String → Except Errno Location}
    {dir l : Location} : ∀ {s : Spot} {parts : List String}, t.Clear (s.location dir) parts →
      (∀ c ∈ parts, Path.isPart c = true) → t.walkFrom last enter (s.location dir) parts = .ok l →
      l = (s.along parts).location dir
  | _, [], _, _, h => by
    cases h
    rfl
  | s, c :: cs, hclear, hparts, h => by
    have hc : (c.isEmpty || decide (c = ".")) = false := by
      have hpart := hparts c (List.mem_cons_self ..)
      simpa [Path.isPart] using hpart
    have hrest : ∀ d ∈ cs, Path.isPart d = true := fun d hd => hparts d (List.mem_cons_of_mem c hd)
    unfold walkFrom at h
    unfold Clear at hclear
    unfold Spot.along
    split at h
    · cases h
    · rw [hc, if_neg Bool.false_ne_true] at h
      by_cases hback : c = ".."
      · rw [if_pos hback, ← Spot.location_up] at h hclear
        rw [if_pos hback]
        exact walkFrom_of_clear hclear hrest h
      · rw [if_neg hback, ← Spot.location_child] at hclear
        rw [if_neg hback, ← Spot.location_child] at h
        rw [if_neg hback]
        obtain ⟨hlink, hclear⟩ := hclear
        split at h
        · cases h
        · split at h
          · cases h
          · split at h
            · next target htarget => exact absurd htarget (hlink target)
            · exact walkFrom_of_clear hclear hrest h
    · cases h

theorem locate_of_clear {t : Tree} {dir l : Location} {p : Path} (hp : p.Proper) (hrelative : ¬p.isAbsolute)
    (hclear : t.Clear dir p.parts) (h : t.locate dir p = .ok l) : l = (spotOf p).location dir := by
  have hstart : (⟨some 0, []⟩ : Spot).location dir = dir := by
    show dir.take (dir.length - 0) ++ [] = dir
    simp
  have hwalk : ∃ enter, t.walk .followed 40 = t.walkFrom .followed enter := ⟨_, rfl⟩
  obtain ⟨enter, hwalk⟩ := hwalk
  unfold locate startOf at h
  rw [if_neg hrelative, hwalk] at h
  rw [← hstart] at hclear
  split at h
  · cases h
  · rw [← hstart] at h
    exact walkFrom_of_clear hclear hp.isPart h

theorem locate_of_absolute {t : Tree} {cwd here : Location} {p : Path} (habsolute : p.isAbsolute) :
    t.locate here p = t.locate cwd p := by
  unfold locate startOf
  rw [if_pos habsolute, if_pos habsolute]

/-- A path means the same from both directories: it's absolute; or there is no link on the ways, the second can be
gone, and the directories are one above the levels that the path climbs; or there is a link, and the ways end at
one place. -/
inductive Agree (t : Tree) (cwd here : Location) (p : Path) : Prop where
  | absolute (h : p.isAbsolute)
  | clear (hcwd : t.Clear cwd p.parts) (hhere : t.Clear here p.parts) (hopen : ∃ m, t.locate here p = .ok m)
    (h : here.take (here.length - climb p) = cwd.take (cwd.length - climb p))
  | linked (hlink : ¬(t.Clear cwd p.parts ∧ t.Clear here p.parts)) (h : t.locate here p = t.locate cwd p)

theorem locate_eq_iff_agree {t : Tree} {cwd here l : Location} {p : Path} (hp : p.Proper)
    (h : t.locate cwd p = .ok l) : t.locate here p = .ok l ↔ t.Agree cwd here p := by
  by_cases habsolute : p.isAbsolute
  · exact ⟨fun _ => .absolute habsolute, fun _ => (locate_of_absolute habsolute).trans h⟩
  constructor
  · intro hhere
    by_cases hclear : t.Clear cwd p.parts ∧ t.Clear here p.parts
    · have hends : (spotOf p).location here = (spotOf p).location cwd :=
        (locate_of_clear hp habsolute hclear.2 hhere).symm.trans (locate_of_clear hp habsolute hclear.1 h)
      rw [location_spotOf, location_spotOf] at hends
      exact .clear hclear.1 hclear.2 ⟨l, hhere⟩ (List.append_cancel_right hends)
    · exact .linked hclear (hhere.trans h.symm)
  · intro hagree
    cases hagree with
    | absolute h' => exact absurd h' habsolute
    | clear hcwd hclear hopen htop =>
      obtain ⟨m, hm⟩ := hopen
      rw [hm, locate_of_clear hp habsolute hclear hm, locate_of_clear hp habsolute hcwd h, location_spotOf,
        location_spotOf, htop]
    | linked hlink hsame => exact hsame.trans h

end Tree

namespace Call

/-- The place of a path for the bundler, at the moment of the call. -/
def ownPlace (c : Call) (p : Path) : Except Errno Location :=
  c.moment.tree.locate c.moment.cwd p

/-- The place at which the program works. -/
def workingPlace (c : Call) : Except Errno Location :=
  c.ownPlace (c.cwd.getD ⟨.none, []⟩)

/-- The place of which a text tells the program. -/
def placeOf (c : Call) (text : String) : Except Errno Location := do
  c.moment.tree.locate (← c.workingPlace) (Path.ofString text)

/-- The texts by which a call tells of places, each with the path that the bundler has for the place. -/
inductive Tells (s : Settings) (tools : Toolchain) (c : Call) : List (String × Path) → Prop where
  | npm {program dir : String} {rest : List String} (hkind : c.kind = .npm)
    (hargv : c.argv = program :: "install" :: "--prefix" :: dir :: rest) :
    Tells s tools c [(program, tools.npm), (dir, s.cacheDir)]
  | pass {p : Pass} {program packages : String} {rest : List String} {config : Json} (hkind : c.kind = .pass p)
    (hargv : c.argv = program :: rest) (hinput : c.input = some (Program.text p config))
    (hpackages : config.field? "nodeModules" = some (.str packages)) :
    Tells s tools c [(program, tools.node), (packages, s.packages)]

end Call

namespace Run

theorem proper_of_found {s : Settings} {h : Host} {w : Workplace} (hnode : ∀ p, s.node = some p → p.Proper)
    (hw : Found s h w) : w.toolchain.node.Proper ∧ w.toolchain.npm.Proper ∧ w.cache = Cache.ofSettings s := by
  obtain ⟨h₁, h₂, -, hrun⟩ := hw
  have hyields : (workplace s).Yields fun w => w.toolchain.node.Proper ∧ w.toolchain.npm.Proper ∧
      w.cache = Cache.ofSettings s :=
    (Toolchain.yields_discover hnode).bind fun t ht => .pure ⟨ht.1, ht.2, rfl⟩
  exact (wp_iff.1 (hyields h₁)).1 w h₂ hrun

/-- What a call tells of places are the texts of the bundler's own paths. -/
theorem tells_of_makes {s : Settings} {w : Workplace} {c : Call} (hcache : w.cache = Cache.ofSettings s)
    (hc : w.Makes c) : c.cwd = some s.cacheDir ∧ ∃ told, c.Tells s w.toolchain told ∧
      ∀ x ∈ told, x.1 = x.2.text := by
  have hroot : w.cache.root = s.cacheDir := by rw [hcache]; rfl
  have hpackages : w.cache.packages = s.packages := by rw [hcache]; rfl
  cases hc with
  | npm batch m =>
    refine ⟨congrArg some hroot, _, .npm rfl rfl, ?_⟩
    simp [hroot]
  | @pass p fields hfields m =>
    have hfield : (w.config fields).field? "nodeModules" = some (.str w.cache.packages.text) := by
      show (fields ++ [("nodeModules", Json.str w.cache.packages.text)]).lookup "nodeModules" = _
      rw [List.lookup_append, hfields]
      rfl
    refine ⟨congrArg some hroot, _, .pass rfl rfl rfl hfield, ?_⟩
    simp [hpackages]

/-- A program that is called under settings that were accepted works in the cache, and finds by a text the place
that the bundler finds if and only if the path means the same from there. Where no link is on the way, a relative
cache is where its names lead from the bundler's directory. -/
theorem run_places {home : String} {fields : List (String × Json)} {s : Settings}
    (hs : Settings.ofFields home fields = .ok s) (h : Host) (entry : Json) : ∃ r h' made,
      (runJson s entry).run h = (.ok r, h') ∧ h'.calls = h.calls ++ made ∧
      ∀ c ∈ made, c.cwd = some s.cacheDir ∧ c.moment.cwd = h.cwd ∧ ∃ w told, Found s h w ∧
        c.Tells s w.toolchain told ∧ ∀ here, c.workingPlace = .ok here →
          (¬s.cacheDir.isAbsolute → c.moment.tree.Clear h.cwd s.cacheDir.parts →
            here = (Tree.spotOf s.cacheDir).location h.cwd) ∧
          ∀ text p l, (text, p) ∈ told → c.ownPlace p = .ok l →
            (c.placeOf text = .ok l ↔ c.moment.tree.Agree h.cwd here p) := by
  obtain ⟨hcacheDir, hnode⟩ := Settings.proper_of_ofFields hs
  obtain ⟨r, h', hrun, made, hcalls, htraced⟩ := exists_run_of_wp (wp_runJson s entry h)
  refine ⟨r, h', made, hrun, hcalls, fun c hc => ?_⟩
  obtain ⟨w, hw, hmakes⟩ := htraced.makes c hc
  obtain ⟨hnode, hnpm, hcache⟩ := proper_of_found hnode hw
  obtain ⟨hcwd, told, htells, htexts⟩ := tells_of_makes hcache hmakes
  have hproper : ∀ x ∈ told, x.2.Proper := by
    have hpackages : s.packages.Proper := hcacheDir.child _
    cases htells <;> simp [hnode, hnpm, hcacheDir, hpackages]
  have hown : ∀ p, c.ownPlace p = c.moment.tree.locate h.cwd p := by
    intro p
    unfold Call.ownPlace
    rw [htraced.places c hc]
  refine ⟨hcwd, htraced.places c hc, w, told, hw, htells, fun here hhere => ⟨?_, ?_⟩⟩
  · intro hrelative hclear
    have hlocate : c.moment.tree.locate h.cwd s.cacheDir = .ok here := by
      rw [← hown, ← hhere]
      unfold Call.workingPlace
      rw [hcwd]
      rfl
    exact Tree.locate_of_clear hcacheDir hrelative hclear hlocate
  · intro text p l hp hl
    obtain rfl : text = p.text := htexts _ hp
    have hplace : c.placeOf p.text = c.moment.tree.locate here p := by
      unfold Call.placeOf
      rw [hhere, (hproper _ hp).ofString_text]
      rfl
    rw [hown] at hl
    rw [hplace]
    exact Tree.locate_eq_iff_agree (hproper _ hp) hl

section Called

/-- A host with a component, node and a package manager that doesn't start. -/
def unready : Host where
  tree.entries := [(["bin"], .dir (.change 0)), (["bin", "node"], .file "" true (.change 0)),
    (["bin", "npm"], .file "" true (.change 0)), (["a.tsx"], .file "" false (.change 0))]
  env := [("PATH", "/bin")]
  outcomes.npm := [.stops .noMemory]

def settingsAt (dir : String) : Settings where
  cacheDir := Path.ofString dir
  styles := false

/-- The calls of a run with the cache at a path. -/
def callsAt (dir : String) : List Call :=
  ((runJson (settingsAt dir) (.str "a.tsx")).run unready).2.calls

/-- Under an absolute path, the package manager finds the cache. -/
theorem absolute_prefix_found : ∃ c ∈ callsAt "/cache", c.placeOf "/cache" = .ok ["cache"] := by
  have hs : Settings.ofFields "" [("cache_dir", .str "/cache"), ("styles", .bool false)] =
    .ok (settingsAt "/cache") := by rfl
  have hcalled : (callsAt "/cache").map (fun c =>
      (c.kind, c.argv.take 4, c.ownPlace (settingsAt "/cache").cacheDir)) =
    [(.npm, ["/bin/npm", "install", "--prefix", "/cache"], .ok ["cache"])] := by decide +kernel
  obtain ⟨r, h', made, hrun, hcalls, hplaces⟩ := run_places hs unready (.str "a.tsx")
  have hmade : callsAt "/cache" = made := by
    unfold callsAt
    rw [hrun, hcalls]
    rfl
  obtain ⟨c, hc, hfacts⟩ := List.mem_map.1 (hcalled ▸ List.mem_singleton_self _)
  obtain ⟨hnpm, hfacts⟩ := Prod.mk.inj hfacts
  obtain ⟨hargs, hown⟩ := Prod.mk.inj hfacts
  obtain ⟨hcwd, -, w, told, -, htells, hplace⟩ := hplaces c (hmade ▸ hc)
  have hhere : c.workingPlace = .ok ["cache"] := by
    unfold Call.workingPlace
    rw [hcwd]
    exact hown
  cases htells with
  | npm hkind hargv =>
    rw [hargv] at hargs
    cases hargs
    exact ⟨c, hc, ((hplace _ hhere).2 "/cache" _ _ (by simp) hown).2 (.absolute rfl)⟩
  | pass hkind => exact nomatch hnpm.symm.trans hkind

/-- Under a relative path, it looks for the cache in the cache. -/
theorem relative_prefix_misplaced :
    Settings.ofFields "" [("cache_dir", .str "cache"), ("styles", .bool false)] = .ok (settingsAt "cache") ∧
    ∃ c ∈ callsAt "cache", c.argv.take 4 = ["/bin/npm", "install", "--prefix", "cache"] ∧
      c.ownPlace (settingsAt "cache").cacheDir = .ok ["cache"] ∧ c.placeOf "cache" = .ok ["cache", "cache"] := by
  have hcalled : (callsAt "cache").map (fun c =>
      (c.argv.take 4, c.ownPlace (settingsAt "cache").cacheDir, c.placeOf "cache")) =
    [(["/bin/npm", "install", "--prefix", "cache"], .ok ["cache"], .ok ["cache", "cache"])] := by decide +kernel
  obtain ⟨c, hc, hfacts⟩ := List.mem_map.1 (hcalled ▸ List.mem_singleton_self _)
  obtain ⟨hargs, hplaces⟩ := Prod.mk.inj hfacts
  exact ⟨by rfl, c, hc, hargs, (Prod.mk.inj hplaces).1, (Prod.mk.inj hplaces).2⟩

end Called

end Run

end Bundler
