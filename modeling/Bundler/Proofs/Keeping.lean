import Bundler.Proofs.Following
import Bundler.Proofs.Places

/-!
# What a run keeps

Where no link is on the way to the cache or directly in it, a path of the bundler's leads to a place that its names
alone tell (`Tree.place`). So it can be said of each place what the bundler may make of what is there (`Kept`): the
directory of the cache and those above it are made, the manifest is written where nothing is, and the lock is emptied.
Every other entry stays, and so does every file by whichever path it's found, unless that leads to the lock
(`Cache.Keeps`). This holds of each of the bundler's own steps, and hence of all that a run does between its calls,
whatever comes of it (`Run.run_keeps`). A component that is the lock itself is emptied.
-/

namespace Bundler

namespace Tree

variable {t t' : Tree} {cwd : Location}

/-! ### Places -/

theorem Spot.along_append : ∀ (s : Spot) (cs ds : List String), s.along (cs ++ ds) = (s.along cs).along ds
  | _, [], _ => rfl
  | s, c :: cs, ds => by
    show Spot.along (if c = ".." then s.up else s.child c) (cs ++ ds) = _
    rw [along_append]
    rfl

/-- Where the names of a path begin. -/
def spotAt (root : Path.Root) : Spot :=
  if root = .none then ⟨some 0, []⟩ else ⟨none, []⟩

theorem location_spotAt (cwd : Location) (p : Path) : (spotAt p.root).location cwd = startOf cwd p := by
  unfold spotAt startOf Path.isAbsolute
  cases p.root with
  | none =>
    show cwd.take (cwd.length - 0) ++ [] = cwd
    simp
  | _ => rfl

/-- The place of a path by its names alone. -/
def place (cwd : Location) (p : Path) : Location :=
  ((spotAt p.root).along p.parts).location cwd

theorem place_child (cwd : Location) (root : Path.Root) (parts : List String) {name : String} (h : name ≠ "..") :
    place cwd ⟨root, parts ++ [name]⟩ = place cwd ⟨root, parts⟩ ++ [name] := by
  unfold place
  dsimp only
  rw [Spot.along_append, ← Spot.location_child]
  show ((if name = ".." then _ else _ : Spot).along []).location cwd = _
  rw [if_neg h]
  rfl

theorem clear_cons {dir : Location} {c : String} {cs : List String} : t.Clear dir (c :: cs) ↔
    if c = ".." then t.Clear dir.dropLast cs
    else (∀ target, t.get? (dir ++ [c]) ≠ some (.link target)) ∧ t.Clear (dir ++ [c]) cs := .rfl

theorem clear_append : ∀ {s : Spot} {cs ds : List String}, t.Clear (s.location cwd) (cs ++ ds) ↔
    t.Clear (s.location cwd) cs ∧ t.Clear ((s.along cs).location cwd) ds
  | _, [], _ => by simp [Clear, Spot.along]
  | s, c :: cs, ds => by
    rw [List.cons_append, clear_cons, clear_cons]
    unfold Spot.along
    split
    · rw [← Spot.location_up]
      exact clear_append
    · rw [← Spot.location_child, clear_append, and_assoc]

theorem Clear.of_grows (hg : t.Grows t') : ∀ {dir : Location} {parts : List String}, t.Clear dir parts →
    t'.Clear dir parts
  | _, [], _ => trivial
  | dir, c :: cs, h => by
    rw [clear_cons] at h ⊢
    split
    · next hback =>
      rw [if_pos hback] at h
      exact Clear.of_grows hg h
    · next hback =>
      rw [if_neg hback] at h
      exact ⟨fun target htarget => h.1 target ((hg.links _ target).1 htarget), Clear.of_grows hg h.2⟩

theorem locate_eq_place {p : Path} {last : LastPart} {l : Location} (hparts : ∀ c ∈ p.parts, Path.isPart c = true)
    (hclear : t.Clear (startOf cwd p) p.parts) (h : t.locate cwd p last = .ok l) : l = place cwd p := by
  obtain ⟨enter, hwalk⟩ : ∃ enter, t.walk last 40 = t.walkFrom last enter := ⟨_, rfl⟩
  unfold locate at h
  rw [hwalk] at h
  rw [← location_spotAt] at h hclear
  split at h
  · cases h
  · exact walkFrom_of_clear hclear hparts h

/-! ### Entries -/

theorem get?_stampDir (dir l : Location) : (t.stampDir dir).get? l = t.get? l ∨
    l = dir ∧ ∃ s s', t.get? l = some (.dir s) ∧ (t.stampDir dir).get? l = some (.dir s') := by
  by_cases hl : l = dir
  · subst hl
    unfold stampDir
    dsimp only
    split
    · next hdir =>
      obtain ⟨s, hs⟩ := isDirAt_iff.1 hdir
      exact .inr ⟨rfl, s, t.next, hs, get?_put_self _ (List.cons_ne_nil _ _) _⟩
    · exact .inl (get?_changes _ _)
  · exact .inl (get?_stampDir_of_ne hl)

/-- A new entry is the only one, but for the mark in the directory above it. -/
theorem get?_add {e : Stamp → Entry} {l : Location} (hnone : t.get? l = none) (m : Location) :
    (m = l ∧ (t.add l e).get? m = some (e t.next)) ∨ (t.add l e).get? m = t.get? m ∨
      m = l.dropLast ∧ ∃ s s', t.get? m = some (.dir s) ∧ (t.add l e).get? m = some (.dir s') := by
  have hne : l ≠ [] := by
    rintro rfl
    cases hnone
  by_cases hm : m = l
  · subst hm
    exact .inl ⟨rfl, (get?_stampDir_of_ne (dropLast_ne hne)).trans (get?_put_self t hne _)⟩
  · have hput : (t.put l (e t.next)).get? m = t.get? m := get?_put_of_ne t hm _
    rcases get?_stampDir (t := t.put l (e t.next)) l.dropLast m with hsame | ⟨hdir, s, s', hs, hs'⟩
    · exact .inr (.inl (hsame.trans hput))
    · exact .inr (.inr ⟨hdir, s, s', hput ▸ hs, hs'⟩)

end Tree

namespace Cache

/-! ### What the bundler makes -/

section Kept

variable (c : Cache) (cwd : Location)

/-- The places at which the bundler makes something. -/
inductive Makes : Location → Prop where
  /-- The directory of the cache or one above it. -/
  | above {parts : List String} (h : parts <+: c.root.parts) : Makes (Tree.place cwd ⟨c.root.root, parts⟩)
  | manifest : Makes (Tree.place cwd c.manifest)
  | lock : Makes (Tree.place cwd c.lock)

/-- What there was at a place, and what the bundler may make of it. -/
inductive Kept (l : Location) : Option Entry → Option Entry → Prop where
  | same (e : Option Entry) : Kept l e e
  /-- A directory in which something was made. -/
  | stamped {m : Location} (hm : Makes c cwd m) (hl : l = m.dropLast) (s s' : Stamp) :
    Kept l (some (.dir s)) (some (.dir s'))
  | made {parts : List String} (h : parts <+: c.root.parts) (hl : l = Tree.place cwd ⟨c.root.root, parts⟩) (s : Stamp) :
    Kept l none (some (.dir s))
  | manifest (hl : l = Tree.place cwd c.manifest) {m : Json} (hm : Manifest.build Manifest.defaultName = .ok m)
    (s : Stamp) : Kept l none (some (.file (Manifest.text m) false s))
  | locked (hl : l = Tree.place cwd c.lock) (s : Stamp) : Kept l none (some (.file "" false s))
  | emptied (hl : l = Tree.place cwd c.lock) (text : String) (x : Bool) (s s' : Stamp) :
    Kept l (some (.file text x s)) (some (.file "" x s'))

/-- All that the bundler leaves as it is. -/
structure Keeps (t t' : Tree) : Prop where
  places : ∀ l, Kept c cwd l (t.get? l) (t'.get? l)
  locked : t'.locked = t.locked
  /-- A file stays by whichever path it's found, unless that leads to the lock. -/
  files : ∀ p text x s, t.stat cwd p = .ok (.file text x s) → t.locate cwd p ≠ .ok (Tree.place cwd c.lock) →
    t'.stat cwd p = .ok (.file text x s)
  manifest : ∀ text x s, t.stat cwd c.manifest = .ok (.file text x s) →
    t'.stat cwd c.manifest = .ok (.file text x s)

end Kept

variable {c : Cache} {cwd : Location} {t t' t'' : Tree}

theorem place_manifest : Tree.place cwd c.manifest = Tree.place cwd c.root ++ ["package.json"] := by
  show Tree.place cwd ⟨c.root.root, c.root.parts ++ ["package.json"]⟩ = _
  exact Tree.place_child cwd _ _ (by decide)

theorem place_lock : Tree.place cwd c.lock = Tree.place cwd c.root ++ [".install.lock"] := by
  show Tree.place cwd ⟨c.root.root, c.root.parts ++ [".install.lock"]⟩ = _
  exact Tree.place_child cwd _ _ (by decide)

theorem place_manifest_ne_lock : Tree.place cwd c.manifest ≠ Tree.place cwd c.lock := by
  rw [place_manifest, place_lock]
  simp

theorem Kept.trans {l : Location} {e e' e'' : Option Entry} (a : Kept c cwd l e e') (b : Kept c cwd l e' e'') :
    Kept c cwd l e e'' := by
  cases a with
  | same => exact b
  | stamped hm hl s s' =>
    cases b with
    | same => exact .stamped hm hl s s'
    | stamped _ _ _ s'' => exact .stamped hm hl s s''
  | made h hl s =>
    cases b with
    | same => exact .made h hl s
    | stamped _ _ _ s' => exact .made h hl s'
  | manifest hl hm s =>
    cases b with
    | same => exact .manifest hl hm s
    | emptied hl' => exact absurd (hl.symm.trans hl') place_manifest_ne_lock
  | locked hl s =>
    cases b with
    | same => exact .locked hl s
    | emptied _ _ _ _ s' => exact .locked hl s'
  | emptied hl text x s s' =>
    cases b with
    | same => exact .emptied hl text x s s'
    | emptied _ _ _ _ s'' => exact .emptied hl text x s s''

theorem grows_of_kept (h : ∀ l, Kept c cwd l (t.get? l) (t'.get? l)) : t.Grows t' := by
  constructor
  · intro l hl
    obtain ⟨s, hs⟩ := Tree.isDirAt_iff.1 hl
    have hkept := h l
    rw [hs] at hkept
    refine Tree.isDirAt_iff.2 ?_
    generalize t'.get? l = e' at hkept
    cases hkept with
    | same => exact ⟨s, rfl⟩
    | stamped _ _ _ s' => exact ⟨s', rfl⟩
  · intro l target
    have hkept := h l
    generalize t.get? l = e at hkept
    generalize t'.get? l = e' at hkept
    cases hkept with
    | same => rfl
    | _ => simp

theorem Keeps.grows (h : c.Keeps cwd t t') : t.Grows t' := grows_of_kept h.places

theorem Keeps.refl (t : Tree) : c.Keeps cwd t t :=
  ⟨fun _ => .same _, rfl, fun _ _ _ _ h _ => h, fun _ _ _ h => h⟩

theorem Keeps.trans (a : c.Keeps cwd t t') (b : c.Keeps cwd t' t'') : c.Keeps cwd t t'' := by
  refine ⟨fun l => (a.places l).trans (b.places l), b.locked.trans a.locked, fun p text x s hstat hlock => ?_,
    fun text x s hstat => b.manifest text x s (a.manifest text x s hstat)⟩
  obtain ⟨l, hl, -⟩ := Tree.stat_eq_ok_iff.1 hstat
  refine b.files p text x s (a.files p text x s hstat hlock) ?_
  rw [Tree.locate_of_grows a.grows (.inl rfl) hl, ← hl]
  exact hlock

/-- No link is on the way to the cache, or directly in it. -/
structure Unlinked (c : Cache) (cwd : Location) (t : Tree) : Prop where
  way : t.Clear (Tree.startOf cwd c.root) c.root.parts
  inside : ∀ name target, t.get? (Tree.place cwd c.root ++ [name]) ≠ some (.link target)

theorem Unlinked.of_grows (hg : t.Grows t') (h : c.Unlinked cwd t) : c.Unlinked cwd t' :=
  ⟨h.way.of_grows hg, fun name target hlink => h.inside name target ((hg.links _ target).1 hlink)⟩

section Steps

variable (hc : c.root.Proper) (h : c.Unlinked cwd t)
include hc h

theorem Unlinked.locate_above {parts : List String} {last : Tree.LastPart} {l : Location} (hparts : parts <+: c.root.parts)
    (hl : t.locate cwd ⟨c.root.root, parts⟩ last = .ok l) : l = Tree.place cwd ⟨c.root.root, parts⟩ := by
  refine Tree.locate_eq_place (fun d hd => hc.isPart d (hparts.subset hd)) ?_ hl
  obtain ⟨rest, hrest⟩ := hparts
  have hway := h.way
  rw [← hrest, ← Tree.location_spotAt, Tree.clear_append] at hway
  rw [← Tree.location_spotAt]
  exact hway.1

theorem Unlinked.locate_inside {name : String} {last : Tree.LastPart} {l : Location} (hname : name ≠ "..")
    (hpart : Path.isPart name = true) (hl : t.locate cwd ⟨c.root.root, c.root.parts ++ [name]⟩ last = .ok l) :
    l = Tree.place cwd ⟨c.root.root, c.root.parts ++ [name]⟩ := by
  refine Tree.locate_eq_place ?_ ?_ hl
  · intro d hd
    rcases List.mem_append.1 hd with hd | hd
    · exact hc.isPart d hd
    · exact List.mem_singleton.1 hd ▸ hpart
  · have hway := h.way
    rw [← Tree.location_spotAt] at hway
    rw [← Tree.location_spotAt]
    refine Tree.clear_append.2 ⟨hway, ?_⟩
    rw [Tree.clear_cons, if_neg hname]
    exact ⟨h.inside name, trivial⟩

theorem Unlinked.locate_manifest {last : Tree.LastPart} {l : Location} (hl : t.locate cwd c.manifest last = .ok l) :
    l = Tree.place cwd c.manifest :=
  h.locate_inside hc (by decide) (by decide) hl

theorem Unlinked.locate_lock {last : Tree.LastPart} {l : Location} (hl : t.locate cwd c.lock last = .ok l) :
    l = Tree.place cwd c.lock :=
  h.locate_inside hc (by decide) (by decide) hl

theorem Unlinked.keeps (hplaces : ∀ l, Kept c cwd l (t.get? l) (t'.get? l)) (hlocked : t'.locked = t.locked) :
    c.Keeps cwd t t' := by
  have hg := grows_of_kept hplaces
  have hfiles : ∀ p text x s, t.stat cwd p = .ok (.file text x s) → t.locate cwd p ≠ .ok (Tree.place cwd c.lock) →
      t'.stat cwd p = .ok (.file text x s) := by
    intro p text x s hstat hlock
    obtain ⟨l, hl, hget⟩ := Tree.stat_eq_ok_iff.1 hstat
    refine Tree.stat_eq_ok_iff.2 ⟨l, Tree.locate_of_grows hg (.inl rfl) hl, ?_⟩
    have hkept := hplaces l
    rw [hget] at hkept
    generalize t'.get? l = e' at hkept
    cases hkept with
    | same => rfl
    | emptied hplace => exact absurd (hplace ▸ hl) hlock
  refine ⟨hplaces, hlocked, hfiles, fun text x s hstat => hfiles _ text x s hstat fun hlock => ?_⟩
  obtain ⟨l, hl, -⟩ := Tree.stat_eq_ok_iff.1 hstat
  rw [hl] at hlock
  exact place_manifest_ne_lock ((h.locate_manifest hc hl).symm.trans (Except.ok.inj hlock))

theorem Unlinked.keeps_add {l : Location} {e : Stamp → Entry} (hl : Makes c cwd l) (hnone : t.get? l = none)
    (hnew : Kept c cwd l none (some (e t.next))) : c.Keeps cwd t (t.add l e) := by
  refine h.keeps hc (fun m => ?_) ?_
  · rcases Tree.get?_add (e := e) hnone m with ⟨rfl, hm⟩ | hm | ⟨hdir, s, s', hs, hs'⟩
    · rw [hm, hnone]
      exact hnew
    · rw [hm]
      exact .same _
    · rw [hs, hs']
      exact .stamped hl hdir s s'
  · unfold Tree.add Tree.stampDir
    dsimp only
    split <;> rfl

theorem Unlinked.keeps_mkdir {parts : List String} (hparts : parts <+: c.root.parts)
    (ht : t.mkdir cwd ⟨c.root.root, parts⟩ = .ok t') : c.Keeps cwd t t' := by
  unfold Tree.mkdir at ht
  cases hl : t.locate cwd ⟨c.root.root, parts⟩ .kept with
  | error e => rw [hl] at ht; cases ht
  | ok l =>
    rw [hl] at ht
    dsimp only [bind, Except.bind] at ht
    split at ht
    · cases ht
    · next hnone =>
      cases ht
      obtain rfl := h.locate_above hc hparts hl
      exact h.keeps_add hc (.above hparts) hnone (.made hparts rfl _)

theorem Unlinked.keeps_manifest {m : Json} (hnone : ∀ e, t.stat cwd c.manifest ≠ .ok e)
    (hm : Manifest.build Manifest.defaultName = .ok m) (ht : t.write cwd c.manifest (Manifest.text m) = .ok t') :
    c.Keeps cwd t t' := by
  obtain ⟨l, hl, ⟨hget, rfl⟩ | ⟨old, x, s, hget, -⟩⟩ := Tree.write_cases ht
  · obtain rfl := h.locate_manifest hc hl
    exact h.keeps_add hc .manifest hget (.manifest rfl hm _)
  · have hl' : t.locate cwd c.manifest = .ok l := Tree.locate_of_grows (.refl t) (.inr ⟨rfl, by simp⟩) hl
    exact absurd (Tree.stat_eq_ok_iff.2 ⟨l, hl', hget⟩) (hnone _)

theorem Unlinked.keeps_lock (ht : t.write cwd c.lock "" = .ok t') : c.Keeps cwd t t' := by
  obtain ⟨l, hl, ⟨hget, rfl⟩ | ⟨old, x, s, hget, rfl⟩⟩ := Tree.write_cases ht
  · obtain rfl := h.locate_lock hc hl
    exact h.keeps_add hc .lock hget (.locked rfl _)
  · obtain rfl := h.locate_lock hc hl
    refine h.keeps hc (fun m => ?_) rfl
    by_cases hm : m = Tree.place cwd c.lock
    · rw [hm, hget, Tree.get?_put_self _ (by rw [place_lock]; simp)]
      exact .emptied rfl old x s _
    · rw [Tree.get?_put_of_ne _ hm, Tree.get?_changes]
      exact .same _

/-- Each of the bundler's own steps keeps what there is. -/
theorem Unlinked.keeps_own (ht : c.Tends cwd t t') : c.Keeps cwd t t' := by
  cases ht with
  | root =>
    let R (t t' : Tree) : Prop := c.Unlinked cwd t → c.Keeps cwd t t'
    have : Chained R := ⟨fun t _ => .refl t, fun a b h => (a h).trans (b (h.of_grows (a h).grows))⟩
    have hall : R t (t.mkdirAll cwd c.root).1 := t.chained_mkdirAll fun hparts ht h => h.keeps_mkdir hc hparts ht
    exact hall h
  | manifest hnone hm ht => exact h.keeps_manifest hc hnone hm ht
  | lock ht => exact h.keeps_lock hc ht

end Steps

theorem keeps_of_course (hc : c.root.Proper) {made : List Call} {Others : Tree → Tree → Prop}
    (hcourse : Course (c.Tends cwd) Others t made t') (ht : c.Unlinked cwd t)
    (hothers : ∀ {t t'}, Others t t' → c.Unlinked cwd t') (hcalls : ∀ d ∈ made, c.Unlinked cwd d.result.2) :
    c.Unlinked cwd t' ∧ Course (c.Keeps cwd) Others t made t' :=
  hcourse.imp (fun h hown => ⟨h.of_grows hown.grows, h.keeps_own hc hown⟩) (fun _ h => hothers h)
    (fun d hd _ => hcalls d hd) ht

theorem keeps_of_alone (hcourse : Course (c.Keeps cwd) (fun _ _ => False) t [] t') : c.Keeps cwd t t' := by
  generalize hmade : ([] : List Call) = made at hcourse
  induction hcourse with
  | done t => exact .refl t
  | own h _ ih => exact h.trans (ih hmade)
  | others h => exact h.elim
  | call => cases hmade

theorem ensure_again {h h₁ : Host} (hr : c.ensure.run h = (.ok (), h₁)) : c.ensure.run h₁ = (.ok (), h₁) := by
  have hready := (wp_iff.1 (c.wp_ensure Host.Same.grows (fun ht => ⟨ht.grows, rfl⟩) h)).1 () h₁ hr
  exact c.ensure_of_ready hready.2

end Cache

namespace Run

/-- Where no link is on the way to the cache or directly in it, and neither others make one there while the lock is waited
for nor what is called: up to the first call, from call to call and to its end, whatever comes of it, a run only makes
the directory of the cache with those above it, the manifest where nothing is, and the lock, which it empties. A cache
that was made ready is left as it is when that is done again. -/
theorem run_keeps {home : String} {fields : List (String × Json)} {s : Settings}
    (hs : Settings.ofFields home fields = .ok s) (entry : Json) (h : Host) : ∃ r h' made,
    (runJson s entry).run h = (.ok r, h') ∧ h'.calls = h.calls ++ made ∧
    ((Cache.ofSettings s).Unlinked h.cwd h.tree → (Cache.ofSettings s).Keeps h.cwd h.tree (begun s entry h) ∧
      ((Cache.ofSettings s).Unlinked h.cwd (h.others (begun s entry h)) →
        (∀ c ∈ made, (Cache.ofSettings s).Unlinked h.cwd c.result.2) →
        Course ((Cache.ofSettings s).Keeps h.cwd) (fun t t' => t = begun s entry h ∧ t' = h.others t)
          (begun s entry h) made h'.tree)) ∧
    ∀ h₁, (Cache.ofSettings s).ensure.run h = (.ok (), h₁) → (Cache.ofSettings s).ensure.run h₁ = (.ok (), h₁) := by
  obtain ⟨hproper, -⟩ := Settings.proper_of_ofFields hs
  obtain ⟨r, h', made, hr, hcalls, hbefore, hcourse⟩ := run_course s entry h
  refine ⟨r, h', made, hr, hcalls, fun htree => ?_, fun h₁ => Cache.ensure_again⟩
  obtain ⟨hbegun, hkeeps⟩ := Cache.keeps_of_course hproper hbefore htree False.elim (by simp)
  refine ⟨Cache.keeps_of_alone hkeeps, fun hothers hmade => ?_⟩
  refine (Cache.keeps_of_course hproper hcourse hbegun ?_ hmade).2
  rintro _ _ ⟨rfl, rfl⟩
  exact hothers

section Called

/-- Nothing in the tree is a link. -/
def linkless (t : Tree) : Bool :=
  t.entries.all fun e => match e.2 with
    | .link _ => false
    | _ => true

theorem unlinked_of_linkless {t : Tree} (ht : linkless t = true) (c : Cache) (cwd : Location) : c.Unlinked cwd t := by
  have hnone : ∀ l target, t.get? l ≠ some (.link target) := by
    intro l target hl
    cases l with
    | nil => cases hl
    | cons d l =>
      obtain ⟨before, after, hentries, -⟩ := List.lookup_eq_some_iff.1 hl
      have hother := List.all_eq_true.1 ht (d :: l, .link target) (by rw [hentries]; simp)
      cases hother
  have hclear : ∀ (parts : List String) (dir : Location), t.Clear dir parts := by
    intro parts
    induction parts with
    | nil => exact fun _ => trivial
    | cons d parts ih =>
      intro dir
      rw [Tree.clear_cons]
      split
      · exact ih _
      · exact ⟨hnone _, ih _⟩
  exact ⟨hclear _ _, fun name => hnone _⟩

/-- A host with a component, and a lock that was written to. -/
def inscribed : Host where
  tree.entries := [(["bin"], .dir (.change 0)), (["bin", "node"], .file "" true (.change 0)),
    (["bin", "npm"], .file "" true (.change 0)), (["a.tsx"], .file "" false (.change 0)), (["cache"], .dir (.change 0)),
    (["cache", ".install.lock"], .file "x" false (.change 0))]
  env := [("PATH", "/bin")]

/-- The calls of a run for a component on that host. -/
def inscribedCalls (entry : String) : List Call :=
  ((runJson (settingsAt "/cache") (.str entry)).run inscribed).2.calls

/-- From call to call the run keeps what there is. -/
theorem inscribed_kept : ∃ r h',
    (runJson (settingsAt "/cache") (.str "a.tsx")).run inscribed = (.ok r, h') ∧
    (inscribedCalls "a.tsx").map Call.kind = [.npm, .pass .discover, .pass .finalize] ∧
    Course ((Cache.ofSettings (settingsAt "/cache")).Keeps [])
      (fun t t' => t = begun (settingsAt "/cache") (.str "a.tsx") inscribed ∧ t' = inscribed.others t)
      (begun (settingsAt "/cache") (.str "a.tsx") inscribed) (inscribedCalls "a.tsx") h'.tree := by
  have hs : Settings.ofFields "" [("cache_dir", .str "/cache"), ("styles", .bool false)] = .ok (settingsAt "/cache") := by
    rfl
  have hothers : linkless (inscribed.others (begun (settingsAt "/cache") (.str "a.tsx") inscribed)) = true := by
    decide +kernel
  have hcalled : (inscribedCalls "a.tsx").map (fun c => (c.kind, linkless c.result.2)) =
      [(.npm, true), (.pass .discover, true), (.pass .finalize, true)] := by
    decide +kernel
  have hlinkless : ∀ x ∈ [(Call.Kind.npm, true), (.pass .discover, true), (.pass .finalize, true)], x.2 = true := by
    decide
  obtain ⟨r, h', made, hr, hcalls, hkeeps, -⟩ := run_keeps hs (.str "a.tsx") inscribed
  obtain ⟨-, hcourse⟩ := hkeeps (unlinked_of_linkless (by decide) _ _)
  have hmade : inscribedCalls "a.tsx" = made := by
    unfold inscribedCalls
    rw [hr, hcalls]
    rfl
  rw [← hmade] at hcourse
  refine ⟨r, h', hr, ?_, hcourse (unlinked_of_linkless hothers _ _) fun c hc => unlinked_of_linkless ?_ _ _⟩
  · have hkinds := congrArg (List.map Prod.fst) hcalled
    rwa [List.map_map] at hkinds
  · exact hlinkless _ (hcalled ▸ List.mem_map_of_mem hc)

/-- A component that is the lock is emptied before any program is called. -/
theorem lock_emptied :
    Settings.ofFields "" [("cache_dir", .str "/cache"), ("styles", .bool false)] = .ok (settingsAt "/cache") ∧
    (Cache.ofSettings (settingsAt "/cache")).Unlinked [] inscribed.tree ∧
    inscribed.tree.read [] (Path.ofString "/cache/.install.lock") = .ok "x" ∧
    ∃ c rest, inscribedCalls "/cache/.install.lock" = c :: rest ∧
      c.moment.tree.read [] (Path.ofString "/cache/.install.lock") = .ok "" := by
  have hcalled : (inscribedCalls "/cache/.install.lock").map
      (fun c => c.moment.tree.read [] (Path.ofString "/cache/.install.lock")) = [.ok "", .ok "", .ok ""] := by
    decide +kernel
  obtain ⟨c, rest, hcalls, hc, -⟩ := List.map_eq_cons_iff.1 hcalled
  exact ⟨by rfl, unlinked_of_linkless (by decide) _ _, by decide +kernel, c, rest, hcalls, hc⟩

end Called

end Run

end Bundler
