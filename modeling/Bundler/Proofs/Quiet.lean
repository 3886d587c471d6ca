import Bundler.Build.Run
import Bundler.Proofs.Step
import Bundler.Proofs.Writing

/-!
# Steps that call no program

Most of what the bundler does is quiet (`Action.Quiet`): it calls no program and stays in its directory, and if
it fails, the failure carries no type of its own and has words for a report, so that it can be reported
(`Failure.Plain`). Much of it changes nothing but the log (`Action.Looks`). Both say how far a step may get from
the host on which it begins (`Action.Stays`), and there is one lemma for each way in which such steps are put
together, and one for each step of the bundler.
-/

namespace Bundler

variable {α β : Type}

namespace Failure

/-- A failure to which nothing has attached a type, whose report isn't empty, and which has no diagnostics. -/
structure Plain (f : Failure) : Prop where
  untyped : ∀ b, f = .bundle b → b.attached = none
  worded : f.report ≠ ""
  silent : f.diagnostics = []

theorem plain_bundle {b : BundleFault} (h : b.attached = none) (hm : b.message ≠ "")
    (hd : b.diagnostics = [] := by rfl) : (bundle b).Plain :=
  ⟨fun _ hb => by cases hb; exact h, hm, hd⟩

/-- Neither a failure of bundling nor one of another origin. -/
def isOwn : Failure → Bool
  | bundle _ | foreign .. => false
  | _ => true

theorem label_ne_empty {f : Failure} (h : f.isOwn = true) : f.label ≠ "" := by
  cases f with
  | os e files => cases e <;> simp [label, Errno.label]
  | bundle b => nomatch h
  | foreign l args => nomatch h
  | excess e => cases e <;> simp [label, Json.Excess.label]
  | _ => simp [label]

/-- The word for its kind stands in for an empty message. -/
theorem plain_own {f : Failure} (h : f.isOwn = true) : f.Plain := by
  have hreport : f.report = if f.message.isEmpty then f.label else f.message := by
    cases f with
    | bundle b => nomatch h
    | _ => rfl
  have hreported : f.report ≠ "" := by
    rw [hreport]
    split
    · exact label_ne_empty h
    · next hm => exact fun hempty => hm (String.isEmpty_iff.2 hempty)
  have hnone : f.diagnostics = [] := by
    cases f with
    | bundle b => nomatch h
    | _ => rfl
  exact ⟨fun b hb => (nomatch hb ▸ h), hreported, hnone⟩

theorem Unlocked.plain {p : Path} {f : Failure} (h : f.Unlocked p) : f.Plain := by
  cases h with
  | nul => exact plain_own rfl
  | os _ _ => exact plain_own rfl
  | refused => exact plain_own rfl

end Failure

/-- Nothing was called between the two, and the bundler is where it was. -/
structure Host.Alike (h h' : Host) : Prop where
  calls : h'.calls = h.calls
  outcomes : h'.outcomes = h.outcomes
  cwd : h'.cwd = h.cwd
  env : h'.env = h.env
  candidates : h'.candidates = h.candidates
  limits : h'.limits = h.limits

/-- Nothing changed but the log. -/
def Host.Same (h h' : Host) : Prop :=
  ∃ lines, h' = { h with log := lines }

namespace Host.Alike

variable {h h' h'' : Host}

theorem refl (h : Host) : h.Alike h := ⟨rfl, rfl, rfl, rfl, rfl, rfl⟩

/-- What is written to the log doesn't count. -/
theorem log (h : Host) (lines : List LogLine) : h.Alike { h with log := lines } := ⟨rfl, rfl, rfl, rfl, rfl, rfl⟩

theorem trans (a : h.Alike h') (b : h'.Alike h'') : h.Alike h'' :=
  ⟨b.calls.trans a.calls, b.outcomes.trans a.outcomes, b.cwd.trans a.cwd, b.env.trans a.env,
    b.candidates.trans a.candidates, b.limits.trans a.limits⟩

end Host.Alike

namespace Host.Same

variable {h h' h'' : Host}

theorem log (h : Host) (lines : List LogLine) : h.Same { h with log := lines } := ⟨lines, rfl⟩

theorem refl (h : Host) : h.Same h := log h h.log

theorem trans (a : h.Same h') (b : h'.Same h'') : h.Same h'' := by
  obtain ⟨_, rfl⟩ := a
  obtain ⟨lines, rfl⟩ := b
  exact ⟨lines, rfl⟩

theorem alike (hh : h.Same h') : h.Alike h' := by
  obtain ⟨lines, rfl⟩ := hh
  exact .log h lines

theorem tree (hh : h.Same h') : h'.tree = h.tree := by
  obtain ⟨lines, rfl⟩ := hh
  rfl

end Host.Same

instance : Chained Host.Alike := ⟨.refl, .trans⟩

instance : Chained Host.Same := ⟨.refl, .trans⟩

namespace Action

/-- The step gets from a host to a related one, and fails plainly if it does. -/
def Stays (R : Host → Host → Prop) (a : Action α) : Prop :=
  ∀ h, wp a (fun _ h' => R h h') (fun f h' => R h h' ∧ f.Plain) h

/-- The step calls nothing and stays where it is. -/
abbrev Quiet (a : Action α) : Prop :=
  a.Stays Host.Alike

/-- The step changes nothing but the log. -/
abbrev Looks (a : Action α) : Prop :=
  a.Stays Host.Same

theorem Stays.mono {R S : Host → Host → Prop} (hRS : ∀ {h h'}, R h h' → S h h') {a : Action α} (ha : a.Stays R) :
    a.Stays S := fun h =>
  wp_mono _ (ha h) (fun _ _ h₁ => hRS h₁) fun _ _ h₁ => ⟨hRS h₁.1, h₁.2⟩

theorem Looks.quiet {a : Action α} (ha : a.Looks) : a.Quiet :=
  ha.mono Host.Same.alike

/-! ### Putting steps together -/

namespace Stays

variable {R : Host → Host → Prop} [Chained R]

/-- The same from a host that is related to an earlier one. -/
theorem since {a : Action α} (ha : a.Stays R) {h h' : Host} (hh : R h h') :
    wp a (fun _ h'' => R h h'') (fun f h'' => R h h'' ∧ f.Plain) h' :=
  wp_mono _ (ha h') (fun _ _ h₁ => Chained.trans hh h₁) fun _ _ h₁ => ⟨Chained.trans hh h₁.1, h₁.2⟩

theorem pure (x : α) : (pure x : Action α).Stays R := fun h => Chained.refl h

theorem throw {f : Failure} (hf : f.Plain) : (throw f : Action α).Stays R := fun h => ⟨Chained.refl h, hf⟩

theorem get : (get : Action Host).Stays R := fun h => Chained.refl h

omit [Chained R] in
theorem modify {f : Host → Host} (hf : ∀ h : Host, R h (f h)) : (modify f : Action Unit).Stays R := fun h => hf h

theorem ofExcept {r : Except Failure α} (hr : ∀ f, r = .error f → f.Plain) :
    (MonadExcept.ofExcept r : Action α).Stays R := by
  intro h
  rw [wp_ofExcept]
  cases r with
  | ok x => exact Chained.refl h
  | error f => exact ⟨Chained.refl h, hr f rfl⟩

theorem bind {a : Action α} {f : α → Action β} (ha : a.Stays R) (hf : ∀ x, (f x).Stays R) : (a >>= f).Stays R := by
  intro h
  rw [wp_bind]
  exact wp_mono _ (ha h) (fun x h' h₁ => (hf x).since h₁) fun _ _ h₁ => h₁

theorem filterM {p : α → Action Bool} (hp : ∀ x, (p x).Stays R) (xs : List α) : (xs.filterM p).Stays R := by
  intro h
  have hp' : ∀ x h₁, R h h₁ → wp (p x) (fun _ h₂ => R h h₂ ∧ True) (fun f h₂ => R h h₂ ∧ f.Plain) h₁ :=
    fun x h₁ hh => wp_mono _ ((hp x).since hh) (fun _ _ h₂ => ⟨h₂, trivial⟩) fun _ _ h₂ => h₂
  exact wp_mono _ (wp_filterM hp' xs (Chained.refl h)) (fun _ _ h₁ => h₁.1) fun _ _ h₁ => h₁

end Stays

/-! ### Steps on the tree -/

theorem plain_refused (e : Errno) (p : Path) : (refused e p).Plain := Failure.plain_own rfl

theorem looks_write (l : Level) (source text : String) : (write l source text).Looks :=
  .modify fun h => .log h _

theorem quiet_echo (s : String) : (echo s).Quiet :=
  .modify fun _ => ⟨rfl, rfl, rfl, rfl, rfl, rfl⟩

theorem looks_checked (p : Path) : (checked p).Looks := by
  unfold checked
  split
  · exact .throw (Failure.plain_own rfl)
  · exact .pure _

theorem looks_observe (p : Path) (f : Tree → Location → Except Errno α) : (observe p f).Looks := by
  refine (looks_checked p).bind fun _ => Stays.get.bind fun h => ?_
  split
  · exact .pure _
  · exact .throw (plain_refused _ p)

theorem quiet_change (p : Path) (f : Tree → Location → Except Errno Tree) : (change p f).Quiet :=
  (looks_observe p f).quiet.bind fun _ => .modify fun _ => ⟨rfl, rfl, rfl, rfl, rfl, rfl⟩

theorem looks_entry (p : Path) : Looks <| entry? p := by
  unfold entry?
  split
  · exact .pure _
  · refine Stays.get.bind fun h => ?_
    split
    · exact .pure _
    · split
      · exact .pure _
      · exact .throw (plain_refused _ p)

theorem looks_exists? (p : Path) : (exists? p).Looks :=
  (looks_entry p).bind fun _ => .pure _

theorem looks_isDir (p : Path) : (isDir p).Looks :=
  (looks_entry p).bind fun _ => by split <;> exact .pure _

theorem looks_isFile (p : Path) : (isFile p).Looks :=
  (looks_entry p).bind fun _ => by split <;> exact .pure _

theorem looks_resolve (p : Path) : (resolve p).Looks := by
  refine (looks_checked p).bind fun _ => Stays.get.bind fun h => ?_
  split
  · exact .pure _
  · exact .throw (Failure.plain_own rfl)

end Action

/-! ### Changes of the tree -/

namespace Change

/-- A step on the tree that fails plainly if it does. -/
def Plain (a : Changing Unit) : Prop :=
  ∀ t, wp a (fun _ _ => True) (fun f _ => f.Plain) t

theorem Plain.bind {a : Changing Unit} {f : Unit → Changing Unit} (ha : Plain a) (hf : ∀ x, Plain (f x)) :
    Plain (a >>= f) := by
  intro t
  rw [wp_bind]
  exact wp_mono _ (ha t) (fun x t' _ => hf x t') fun _ _ h => h

theorem Plain.forM {p : α → Changing Unit} (hp : ∀ x, Plain (p x)) (xs : List α) : Plain (xs.forM p) := by
  intro t
  have hp' : ∀ x t, True → wp (p x) (fun _ _ => True) (fun f _ => True ∧ f.Plain) t := fun x t _ =>
    wp_mono _ (hp x t) (fun _ _ h => h) fun _ _ h => ⟨trivial, h⟩
  exact wp_mono _ (wp_forM hp' xs trivial) (fun _ _ h => h) fun _ _ h => h.2

theorem plain_step (files : List String) (f : Tree → Except Errno Tree) : Plain (step files f) := by
  intro t
  unfold step
  dsimp only
  split
  · exact Failure.plain_own rfl
  · rw [wp_bind, wp_get]
    cases f t with
    | ok t' => trivial
    | error e => exact Failure.plain_own rfl

theorem plain_makeDirs (cwd : Location) (p : Path) : Plain (makeDirs cwd p) := by
  intro t
  unfold makeDirs
  dsimp only
  split
  · exact Failure.plain_own rfl
  · rw [wp_bind, wp_get]
    rcases t.mkdirAll cwd p with ⟨t', _ | ⟨e, place⟩⟩
    · trivial
    · exact Failure.plain_own rfl

theorem plain_apply (cwd : Location) : ∀ c : Change, Plain (apply cwd c)
  | write p text x ns =>
    (plain_makeDirs cwd _).bind fun _ => (plain_step _ _).bind fun _ => (plain_step _ _).bind fun _ => by
      cases ns with
      | none => exact fun _ => trivial
      | some ns => exact plain_step _ _
  | mkdir p => plain_makeDirs cwd p
  | link p target => (plain_makeDirs cwd _).bind fun _ => plain_step _ _
  | remove p => plain_step _ _
  | touch p ns => plain_step _ _
  | install packages names => .forM (fun name => plain_makeDirs cwd _) names

theorem plain_applyAll (cwd : Location) (cs : List Change) : Plain (applyAll cwd cs) :=
  .forM (plain_apply cwd) cs

end Change

namespace Action

theorem quiet_changing {a : Location → Changing Unit} (ha : ∀ cwd, Change.Plain (a cwd)) :
    (changing a).Quiet := by
  intro h
  have hrun : (changing a).run h =
      (((a h.cwd).run h.tree).1, { h with tree := ((a h.cwd).run h.tree).2 }) := rfl
  have hplain := (wp_iff.1 (ha h.cwd h.tree)).2
  unfold wp
  rw [hrun]
  rcases hr : (a h.cwd).run h.tree with ⟨f | _, t⟩
  · exact ⟨⟨rfl, rfl, rfl, rfl, rfl, rfl⟩, hplain f t hr⟩
  · exact ⟨rfl, rfl, rfl, rfl, rfl, rfl⟩

theorem quiet_changeAll (cs : List Change) : (changeAll cs).Quiet :=
  quiet_changing fun cwd => Change.plain_applyAll cwd cs

theorem quiet_makeDirs (p : Path) : (makeDirs p).Quiet :=
  quiet_changing fun cwd => Change.plain_makeDirs cwd p

theorem quiet_writeText (p : Path) (text : String) : (writeText p text).Quiet :=
  quiet_change p _

theorem quiet_announce (event : String) : (announce event).Quiet := by
  refine Stays.get.bind fun h => ?_
  split
  · exact .pure _
  · exact .modify fun _ => ⟨rfl, rfl, rfl, rfl, rfl, rfl⟩
  · exact quiet_echo _

end Action

/-! ### Paths and names -/

/-- What is computed fails plainly if it does. -/
def Failure.PlainIn (r : Except Failure α) : Prop :=
  ∀ f, r = .error f → f.Plain

namespace Failure.PlainIn

theorem ok (x : α) : PlainIn (.ok x : Except Failure α) := nofun

theorem error {f : Failure} (hf : f.Plain) : PlainIn (.error f : Except Failure α) := by
  rintro _ ⟨⟩
  exact hf

theorem bind {r : Except Failure α} {f : α → Except Failure β} (hr : PlainIn r) (hf : ∀ x, PlainIn (f x)) :
    PlainIn (r >>= f) := by
  cases r with
  | ok x => exact hf x
  | error e =>
    rintro _ ⟨⟩
    exact hr e rfl

theorem map {r : Except Failure α} (hr : PlainIn r) (f : α → β) : PlainIn (f <$> r) := by
  cases r with
  | ok x => exact ok _
  | error e =>
    rintro _ ⟨⟩
    exact hr e rfl

theorem mapM {f : α → Except Failure β} (hf : ∀ x, PlainIn (f x)) : ∀ xs : List α, PlainIn (xs.mapM f)
  | [] => ok _
  | x :: xs => by
    rw [List.mapM_cons]
    exact (hf x).bind fun y => (mapM hf xs).bind fun ys => ok _

theorem filterM {p : α → Except Failure Bool} (hp : ∀ x, PlainIn (p x)) (xs : List α) : PlainIn (xs.filterM p) := by
  have haux : ∀ acc, PlainIn (xs.filterAuxM p acc) := by
    induction xs with
    | nil => exact fun acc => ok acc
    | cons x xs ih => exact fun acc => (hp x).bind fun b => ih _
  exact (haux []).bind fun ys => ok _

end Failure.PlainIn

open Failure (PlainIn)

namespace Path

theorem plain_homeOf (part home : String) : PlainIn (homeOf part home) := by
  unfold homeOf
  split
  · exact .ok _
  · split
    · exact .error (Failure.plain_own rfl)
    · split
      · exact .ok _
      · exact .error (Failure.plain_own rfl)

theorem plain_expandHome (p : Path) (home : String) : PlainIn (p.expandHome home) := by
  unfold expandHome
  split
  · split
    · refine (plain_homeOf _ home).bind fun dir => ?_
      dsimp only
      split
      · exact .error (Failure.plain_own rfl)
      · exact .ok _
    · exact .ok _
  · exact .ok _

end Path

namespace Package

theorem plain_specifier (s : String) : PlainIn (specifier s) := by
  unfold specifier
  split
  · exact .error (Failure.plain_own rfl)
  · exact .ok _

theorem plain_nameOf (s : String) : PlainIn (nameOf s) :=
  (plain_specifier s).bind fun _ => .ok _

theorem plain_isBare (s : String) : PlainIn (isBare s) :=
  (plain_specifier s).bind fun _ => .ok _

theorem plain_distinctNames (ss : List String) : PlainIn (distinctNames ss) :=
  (PlainIn.mapM plain_nameOf ss).bind fun _ => .ok _

end Package

theorem Action.looks_expandHome (p : Path) : (expandHome p).Looks :=
  Stays.get.bind fun h => .ofExcept (p.plain_expandHome h.home)

/-! ### The cache -/

theorem Manifest.plain_build (name : Json) : PlainIn (build name) := by
  unfold build
  split
  · split
    · exact .error (Failure.plain_own rfl)
    · exact .ok _
  · exact .error (Failure.plain_own rfl)

theorem Manifest.quiet_put (p : Path) (m : Json) : (put p m).Quiet :=
  (Action.quiet_makeDirs _).bind fun _ => Action.quiet_writeText p _

namespace Cache

variable (c : Cache)

theorem looks_isInstalled (n : String) : (c.isInstalled n).Looks :=
  (Action.Stays.ofExcept ((Package.plain_nameOf n).bind fun _ => .ok _)).bind fun _ => Action.looks_isDir _

theorem looks_needsInstall : c.needsInstall.Looks :=
  (c.looks_isInstalled "react").bind fun there => .pure !there

theorem quiet_ensure : c.ensure.Quiet := by
  have hbuild : (MonadExcept.ofExcept (Manifest.build Manifest.defaultName) : Action Json).Quiet :=
    .ofExcept (Manifest.plain_build _)
  refine (Action.quiet_makeDirs _).bind fun _ => (Action.looks_exists? _).quiet.bind fun there => ?_
  split
  · exact (Action.looks_write _ _ _).quiet.bind fun _ => hbuild.bind fun m => Manifest.quiet_put _ m
  · exact .pure _

theorem quiet_acquire : c.acquire.Quiet := by
  refine Action.Stays.get.bind fun h => Action.Stays.bind (Action.Stays.modify ?_) fun _ => ?_
  · exact fun _ => ⟨rfl, rfl, rfl, rfl, rfl, rfl⟩
  refine (Action.quiet_changeAll _).bind fun _ => Action.Stays.get.bind fun h => ?_
  refine Action.quiet_changing fun cwd t => wp_iff.2 ⟨fun _ _ _ => trivial, fun f t' hf => ?_⟩
  exact (h.locking.refuses cwd c.lock t f t' hf).plain

end Cache

/-! ### Looking for node, the package manager and the component -/

namespace Toolchain

theorem plain_fault {message : String} (hm : message ≠ "") : (fault message).Plain :=
  Failure.plain_bundle rfl hm

theorem looks_managedNode (home : Path) : (managedNode home).Looks := by
  refine (Action.looks_isDir _).bind fun there => ?_
  split
  · exact .pure _
  · refine (Action.looks_observe _ _).bind fun names => ?_
    exact (Action.Stays.filterM (fun name => Action.looks_exists? _) names).bind fun _ => .pure _

theorem looks_firstThere : ∀ ps : List Path, (firstThere ps).Looks
  | [] => .pure _
  | p :: ps => (Action.looks_exists? p).bind fun there => by
    split
    · exact .pure _
    · exact looks_firstThere ps

theorem looks_locateNode (explicit home : Option Path) : (locateNode explicit home).Looks := by
  unfold locateNode
  split
  · refine (Action.looks_exists? _).bind fun there => ?_
    split
    · exact .pure _
    · exact .throw (plain_fault (by simp))
  · refine Action.Stays.get.bind fun h => ?_
    split
    · exact .pure _
    · refine (looks_firstThere _).bind fun found => ?_
      split
      · exact .pure _
      · dsimp only
        split
        · refine (looks_managedNode _).bind fun found => ?_
          split
          · exact .pure _
          · exact .throw (plain_fault (by decide))
        · refine (Action.Stays.ofExcept (Path.plain_expandHome _ _)).bind fun home => ?_
          refine (looks_managedNode home).bind fun found => ?_
          split
          · exact .pure _
          · exact .throw (plain_fault (by decide))

theorem looks_locateNpm (node : Path) (env : Environment) : (locateNpm node env).Looks := by
  refine Action.Stays.get.bind fun h => ?_
  dsimp only
  split
  · exact .pure _
  · exact .throw (plain_fault (by simp))

theorem looks_discover (explicit : Option Path) : (discover explicit).Looks :=
  (looks_locateNode _ _).bind fun _ => Action.Stays.get.bind fun _ => (looks_locateNpm _ _).bind fun _ =>
    (Action.looks_write _ _ _).bind fun _ => .pure _

end Toolchain

theorem Missing.looks_absent (c : Cache) (names : List String) : (absent c names).Looks :=
  (Action.Stays.filterM (fun n => (c.looks_isInstalled n).bind fun _ => .pure _) names).bind fun _ => .pure _

namespace Run

theorem looks_entryFile (entry : Path) : (entryFile entry).Looks := by
  refine (Action.looks_expandHome entry).bind fun p => (Action.looks_resolve p).bind fun resolved => ?_
  refine (Action.looks_isFile resolved).bind fun there => ?_
  split
  · exact .pure _
  · exact .throw (Failure.plain_bundle rfl (by simp))

theorem looks_workplace (s : Settings) : (workplace s).Looks :=
  (Toolchain.looks_discover s.node).bind fun _ => .pure _

end Run

end Bundler
