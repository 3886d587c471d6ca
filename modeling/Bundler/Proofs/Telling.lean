import Mathlib.Data.List.Forall2
import Bundler.Command.Perform
import Bundler.Proofs.Comparing
import Bundler.Proofs.Following
import Bundler.Proofs.Watching

/-!
# What a watcher tells

Two things write to the standard output of a session: a build, which tells of its first install, and the watcher, which
tells what came of the build. Both write messages, each on a line of its own, and nothing else is written in between
(`Host.Tells`). A build always has a result, and so its messages are a block of one or three (`Build.Tells`): the two of
the first install come first, if the cache lacked the framework when the build got there, and whether or not the install
failed (`Run.run_tells`).

A session doesn't count its builds. `Command.session` is the same session with its builds on record: what is kept on
record changes nothing on the host (`Shadows`).
-/

namespace Bundler

variable {α β ε σ τ : Type}

/-! ### Messages -/

namespace Json

/-- A message without a payload. -/
def notice (event : String) : Json :=
  .obj [("event", .str event), ("payload", .null)]

/-- Messages as they're written, each on a line of its own. -/
def lines (told : List Json) : String :=
  String.join ((told.map write).map (· ++ "\n"))

theorem lines_singleton (e : Json) : lines [e] = e.write ++ "\n" := by
  simp [lines]

theorem lines_append (a b : List Json) : lines (a ++ b) = lines a ++ lines b := by
  simp [lines]

theorem pieces_lines (told : List Json) : Text.pieces '\n' (lines told) = told.map write ++ [""] :=
  Text.pieces_lines (List.forall_mem_map.2 fun e _ => e.newline_notMem_write)

theorem exact_message (event : String) {payload : Json} (hpayload : payload.Exact) :
    (obj [("event", .str event), ("payload", payload)]).Exact := by
  refine .obj (by simp) ?_
  simp only [List.forall_mem_cons]
  exact ⟨.str event, hpayload, List.forall_mem_nil _⟩

end Json

/-- Where no control sequence begins there is none. -/
theorem Text.Ansi.Cleared.eq_of_notMem {cs ds : List Char} (h : Cleared cs ds) (hno : escape ∉ cs) : ds = cs := by
  induction h with
  | nil => rfl
  | drop hs _ _ =>
    obtain ⟨ps, c, -, -, rfl⟩ := hs
    exact absurd (List.mem_cons_self ..) hno
  | keep _ _ ih => rw [ih fun hmem => hno (List.mem_cons_of_mem _ hmem)]

/-- What only makes a value of how a step ended leaves the host to the step. -/
theorem Action.snd_attempt_bind {α β : Type} {a : Action β} {f : Except Failure β → Action α}
    (hf : ∀ r h, ((f r).run h).2 = h) (h : Host) : ((attempt a >>= f).run h).2 = (a.run h).2 :=
  hf (a.run h).1 (a.run h).2

theorem Action.echoLine_run (e : Json) (h : Host) :
    (echoLine e.write).run h = (.ok (), { h with stdout := h.stdout ++ Json.lines [e] }) := by
  have hstrip : h.stripping.strip (e.write ++ "\n").toList = (e.write ++ "\n").toList := by
    refine (h.stripping.cleared _).eq_of_notMem ?_
    rw [String.toList_append, List.mem_append, not_or]
    exact ⟨fun hmem => absurd (e.plain_write _ hmem) (by decide), by decide⟩
  have hwritten : (echoLine e.write).run h =
      (.ok (), { h with stdout := h.stdout ++ String.ofList (h.stripping.strip (e.write ++ "\n").toList) }) := rfl
  rw [hwritten, hstrip, String.ofList_toList, Json.lines_singleton]

theorem Command.tell_run {e : Json} {h : Host} (he : e.Fits h.limits.toTell) :
    (tell e).run h = (.ok (), { h with stdout := h.stdout ++ Json.lines [e] }) := by
  have hwritten : (MonadExcept.ofExcept ((e.encode h.limits.toTell).mapError .excess) : Action String).run h =
      (.ok e.write, h) := by
    rw [Json.encode_of_fits he]
    rfl
  exact (run_bind_of_ok rfl).trans ((run_bind_of_ok hwritten).trans (Action.echoLine_run e h))

/-- Between the two hosts these messages were written, and nothing else. -/
structure Host.Tells (told : List Json) (h h' : Host) : Prop where
  stdout : h'.stdout = h.stdout ++ Json.lines told
  news : h'.news = h.news

namespace Host

variable {h h' h'' : Host} {told more : List Json}

theorem Tells.nothing (hstdout : h'.stdout = h.stdout) (hnews : h'.news = h.news) : h.Tells [] h' :=
  ⟨hstdout.trans String.append_empty.symm, hnews⟩

theorem Tells.append (ha : h.Tells told h') (hb : h'.Tells more h'') : h.Tells (told ++ more) h'' :=
  ⟨by rw [hb.stdout, ha.stdout, Json.lines_append, String.append_assoc], hb.news.trans ha.news⟩

theorem Tells.behind (ha : h.Tells told h') (hb : h'.Tells [] h'') : h.Tells told h'' := by
  have hboth := ha.append hb
  rwa [List.append_nil] at hboth

instance : Chained (Tells []) := ⟨fun _ => .nothing rfl rfl, Tells.append⟩

theorem Same.hushed (hh : h.Same h') : h.Tells [] h' := by
  obtain ⟨lines, rfl⟩ := hh
  exact .nothing rfl rfl

end Host

open Host (Tells)

/-! ### What tells nothing -/

/-- Nothing is written to the standard output. -/
abbrev Hushed (a : ExceptT ε (StateM Host) α) : Prop :=
  Follows (Tells []) a

theorem Action.Reads.follows {R : Host → Host → Prop} [Chained R] {a : Action α} (ha : a.Reads) : Follows R a := by
  intro h
  rw [ha h]
  exact Chained.refl h

theorem hushed_changing (a : Location → Changing Unit) : Hushed (Action.changing a) := fun _ =>
  .nothing rfl rfl

theorem hushed_call (plan : Call) : Hushed (Action.call plan) := by
  intro h
  obtain ⟨c, log, outcomes, hr, -, -⟩ := Action.call_run plan h
  rw [hr]
  exact .nothing rfl rfl

theorem hushed_acquire (c : Cache) : Hushed c.acquire := by
  refine Follows.bind (fun h => Chained.refl h) fun h => .bind (fun _ => .nothing rfl rfl) fun _ => ?_
  exact .bind (hushed_changing _) fun _ => .bind (fun h => Chained.refl h) fun h => hushed_changing _

theorem hushed_install (w : Workplace) (specifiers : List String) :
    Follows (Behind (Tells [])) (Installer.install w specifiers) := by
  refine .bind (follows_pending (fun _ _ => Host.Same.hushed) w specifiers) fun batch => ?_
  split
  · exact .pure _
  · exact .bind (.lift (hushed_acquire w.cache)) fun _ =>
      follows_installLocked (fun _ _ => Host.Same.hushed) w hushed_call batch

theorem hushed_runPass (w : Workplace) (p : Pass) (config : Json) : Hushed (w.runPass p config) :=
  follows_runPass_of w fun plan _ => hushed_call plan

theorem hushed_sleep (seconds : Number) : Hushed (Action.sleep seconds) := by
  unfold Action.sleep
  refine .bind (fun h => Chained.refl h) fun h => ?_
  split
  · refine .bind (fun _ => .nothing rfl rfl) fun _ => .bind (fun h => Chained.refl h) fun h => ?_
    refine .bind (hushed_changing _) fun _ => ?_
    split
    · exact .throw _
    · exact .pure _
  · exact .throw _

/-! ### What a build tells -/

namespace Run

/-- The build gets to its first install, and then the cache lacks the framework. -/
def Fresh (s : Settings) (entry : Path) (h : Host) : Prop :=
  ∃ prepared h', (preparing s entry).run h = (.ok prepared, h') ∧
    ((Cache.ofSettings s).isInstalled "react").seenAt h'.tree h'.cwd = .ok false

def opening : List Json :=
  [.notice "install-started", .notice "install-finished"]

theorem announce_tells (event : String) {h : Host} (hnews : h.news = .printed) : ∃ h',
    (Action.announce event).run h = (.ok (), h') ∧ h.Tells [.notice event] h' := by
  refine ⟨{ h with stdout := h.stdout ++ Json.lines [.notice event] }, ?_, rfl, rfl⟩
  unfold Action.announce
  rw [run_get_bind]
  split
  · next hn => exact absurd (hn.symm.trans hnews) nofun
  · next hn => exact absurd (hn.symm.trans hnews) nofun
  · exact Action.echoLine_run (.notice event) h

/-- The news of the first install come before it and after it, and it makes no difference whether it failed. -/
theorem installBase_fresh (w : Workplace) {h : Host} (hnews : h.news = .printed)
    (hreact : (w.cache.isInstalled "react").seenAt h.tree h.cwd = .ok false) :
    h.Tells opening ((installBase w).run h).2 := by
  have hneeds : w.cache.needsInstall.run h = (.ok true, h) := by
    unfold Cache.needsInstall
    rw [run_bind, w.cache.reads_isInstalled "react" h, hreact]
    rfl
  let install : Action (List String × Installer) := (Installer.installBase w w.settings.styles).toAction {}
  obtain ⟨h₁, (hstarted : (announceIf true "install-started").run h = _), htold⟩ :=
    announce_tells "install-started" hnews
  -- the install is made a value, so that what comes after it comes after a failed one, too
  have hvalue : (Action.attempt install).run h₁ = (.ok (install.run h₁).1, (install.run h₁).2) := rfl
  have hinstall : h₁.Tells [] (install.run h₁).2 := Follows.toAction (hushed_install w _) {} h₁
  obtain ⟨h₃, (hfinished : (announceIf true "install-finished").run _ = _), htold'⟩ :=
    announce_tells "install-finished" ((hinstall.news.trans htold.news).trans hnews)
  rw [installBase_eq, run_bind_of_ok hneeds, run_bind_of_ok hstarted, run_bind_of_ok hvalue, run_bind_of_ok hfinished]
  have hend : ∀ r : Except Failure (List String × Installer),
      ((MonadExcept.ofExcept r >>= fun r => pure r.2 : Action Installer).run h₃).2 = h₃ := fun r => by
    cases r <;> rfl
  rw [hend]
  exact (htold.behind hinstall).append htold'

theorem installBase_stocked (w : Workplace) {h : Host}
    (hreact : (w.cache.isInstalled "react").seenAt h.tree h.cwd ≠ .ok false) :
    h.Tells [] ((installBase w).run h).2 := by
  rw [installBase_eq, run_bind]
  unfold Cache.needsInstall
  rw [run_bind, w.cache.reads_isInstalled "react" h]
  rcases hr : (w.cache.isInstalled "react").seenAt h.tree h.cwd with f | there
  · exact .nothing rfl rfl
  · obtain rfl : there = true := by
      cases there with
      | true => rfl
      | false => exact absurd hr hreact
    have hrest : Hushed (Action.attempt ((Installer.installBase w w.settings.styles).toAction {}) >>=
        fun r => MonadExcept.ofExcept r >>= fun r => pure r.2 : Action Installer) :=
      .bind (.attempt (.toAction (hushed_install w _) {})) fun r => .bind (.ofExcept r) fun _ => .pure _
    exact hrest h

theorem hushed_preparing (s : Settings) (entry : Path) : Hushed (preparing s entry) := by
  have hensure : (Cache.ofSettings s).ensure.Stays (Tells []) :=
    (Cache.ofSettings s).stays_ensure Host.Same.hushed fun _ => .nothing rfl rfl
  exact follows_of_wp fun h =>
    wp_mono _ (wp_preparing Host.Same.hushed s hensure entry h) (fun _ _ hh => hh) fun _ _ hf => hf.1

/-- Of all that a run does only its first install is told. -/
theorem steps_tells (s : Settings) (entry : Path) {h : Host} (hnews : h.news = .printed) :
    (Fresh s entry h → h.Tells opening ((steps s entry).run h).2) ∧
      (¬ Fresh s entry h → h.Tells [] ((steps s entry).run h).2) := by
  -- nothing is told before the first install, and nothing behind it
  have hprepared := hushed_preparing s entry h
  rw [steps_eq_preparing, run_bind]
  rcases hr : (preparing s entry).run h with ⟨halt | ⟨resolved, tools⟩, h₁⟩
  · rw [hr] at hprepared
    refine ⟨fun hfresh => ?_, fun _ => hprepared⟩
    obtain ⟨prepared, h', hr', -⟩ := hfresh
    rw [hr] at hr'
    cases hr'
  · rw [hr] at hprepared
    let w := placeOf s tools
    let rest := fun i => scripting w i resolved >>= style w
    have hrest : ∀ i, Hushed (rest i) := by
      intro i
      rw [show rest i = discovering w i resolved from (discovering_eq w i resolved).symm]
      exact follows_discovering (fun _ _ => Host.Same.hushed) w (hushed_install w) (hushed_runPass w) i resolved
    have hinstalled : ∀ told, h₁.Tells told ((installBase w).run h₁).2 →
        h.Tells told ((during .cacheReady (installBase w) >>= rest).run h₁).2 := by
      intro told htold
      have htold : h.Tells told ((installBase w).run h₁).2 := hprepared.append htold
      rw [run_bind, during_run]
      cases ((installBase w).run h₁).1 with
      | error f => exact htold
      | ok i => exact htold.behind (hrest i _)
    refine ⟨fun hfresh => ?_, fun hstocked => ?_⟩
    · obtain ⟨prepared, h', hr', hreact⟩ := hfresh
      rw [hr] at hr'
      cases hr'
      exact hinstalled _ (installBase_fresh w (hprepared.news.trans hnews) hreact)
    · exact hinstalled _ (installBase_stocked w fun hreact => hstocked ⟨_, _, hr, hreact⟩)

end Run

/-- What a run tells are its first install's news. -/
theorem Run.run_tells (s : Settings) (entry : Path) {h : Host} (hnews : h.news = .printed) : ∃ r h',
    (run s entry).run h = (.ok r, h') ∧ r.Reportable h.limits ∧ h'.limits = h.limits ∧
    (Fresh s entry h → h.Tells opening h') ∧ (¬ Fresh s entry h → h.Tells [] h') := by
  obtain ⟨r, h', hr, hreportable, hlimits, hsame⟩ := run_result s entry h
  have htells := steps_tells s entry hnews
  exact ⟨r, h', hr, hreportable, hlimits, fun hfresh => (htells.1 hfresh).behind hsame.hushed,
    fun hstocked => (htells.2 hstocked).behind hsame.hushed⟩

/-! ### Watching -/

namespace Watch

section Following

variable {R : σ × Host → σ × Host → Prop} [Chained R] {o : Options} {build : Path → ActionWith σ BuildResult}
  {emit : Json → ActionWith σ Unit} (hquiet : ∀ {x : σ × Host} {h : Host}, x.2.Tells [] h → R x (x.1, h))
  (hrebuild : ∀ path, Follows R (rebuild (onHost build emit) path))

include hquiet

omit [Chained R] in
theorem follows_quiet {a : Action α} (ha : Hushed a) : Follows R (liftM a : ActionWith σ α) := fun x =>
  hquiet (ha x.2)

include hrebuild

theorem follows_start (path : Path) : Follows R (start (onHost build emit) path) := by
  refine .bind (hrebuild path) fun _ => .bind (follows_quiet hquiet (Action.reads_stamp? path).follows) fun _ => ?_
  exact .bind (fun x => Chained.refl x) fun _ => .pure _

theorem follows_poll (path : Path) (m : Memory) : Follows R (poll o (onHost build emit) path m) := by
  refine .bind (follows_quiet hquiet (hushed_sleep _)) fun _ => ?_
  refine .bind (follows_quiet hquiet (Action.reads_stamp? path).follows) fun found => ?_
  refine .bind (fun x => Chained.refl x) fun now => .bind (.ofExcept _) fun next => ?_
  split
  · exact .pure _
  · refine .bind (follows_quiet hquiet (.of_looks (fun _ _ => Host.Same.hushed) (Action.looks_write _ _ _))) fun _ => ?_
    exact .bind (hrebuild path) fun _ => .pure _

theorem follows_loop (path : Path) : ∀ (fuel : Nat) (m : Memory), Follows R (loop o (onHost build emit) path fuel m)
  | 0, _ => .throw _
  | fuel + 1, m => by
    unfold loop
    cases goesOn o m with
    | false => exact .pure _
    | true => exact .bind (follows_poll hquiet hrebuild path m) fun m => follows_loop path fuel m

/-- A watcher keeps what its builds keep, and what all that tells nothing keeps. -/
theorem follows_watch (entry : Path) : Follows R (watch o entry build emit) := by
  have hlook : ∀ {α : Type} {a : Action α}, a.Looks → Follows R (liftM a : ActionWith σ α) := fun ha =>
    follows_quiet hquiet (.of_looks (fun _ _ => Host.Same.hushed) ha)
  refine .bind (hlook (Action.looks_expandHome entry)) fun p => .bind (hlook (Action.looks_resolve p)) fun path => ?_
  refine .bind (follows_start hquiet hrebuild path) fun m => .bind (fun x => Chained.refl x) fun fuel => ?_
  exact follows_loop hquiet hrebuild path fuel m

end Following

end Watch

/-- What the two steps keep may be different, but not what they do on a host. -/
def Shadows (a : ActionWith σ α) (b : ActionWith τ α) : Prop :=
  ∀ x y h, (a.run (x, h)).1 = (b.run (y, h)).1 ∧ (a.run (x, h)).2.2 = (b.run (y, h)).2.2

namespace Shadows

theorem lift (a : Action α) : Shadows (liftM a : ActionWith σ α) (liftM a : ActionWith τ α) := fun _ _ _ => ⟨rfl, rfl⟩

theorem pure (x : α) : Shadows (pure x : ActionWith σ α) (pure x : ActionWith τ α) := fun _ _ _ => ⟨rfl, rfl⟩

theorem throw (f : Failure) : Shadows (throw f : ActionWith σ α) (throw f : ActionWith τ α) := fun _ _ _ => ⟨rfl, rfl⟩

theorem ofExcept (r : Except Failure α) :
    Shadows (MonadExcept.ofExcept r : ActionWith σ α) (MonadExcept.ofExcept r : ActionWith τ α) := fun _ _ _ => by
  cases r <;> exact ⟨rfl, rfl⟩

theorem bind {a : ActionWith σ α} {b : ActionWith τ α} {f : α → ActionWith σ β} {g : α → ActionWith τ β}
    (ha : Shadows a b) (hf : ∀ x, Shadows (f x) (g x)) : Shadows (a >>= f) (b >>= g) := by
  intro x y h
  obtain ⟨hvalue, hhost⟩ := ha x y h
  rw [run_bind, run_bind]
  rcases hra : a.run (x, h) with ⟨r, x', h'⟩
  rcases hrb : b.run (y, h) with ⟨r', y', h''⟩
  rw [hra, hrb] at hvalue hhost
  obtain rfl : r = r' := hvalue
  obtain rfl : h' = h'' := hhost
  cases r with
  | error f => exact ⟨rfl, rfl⟩
  | ok v => exact hf v x' y' h'

end Shadows

namespace Watch

variable {o : Options} {build : Path → ActionWith σ BuildResult} {build' : Path → ActionWith τ BuildResult}
  {emit : Json → ActionWith σ Unit} {emit' : Json → ActionWith τ Unit}

theorem shadows_rebuild (hbuild : ∀ p, Shadows (build p) (build' p)) (hemit : ∀ e, Shadows (emit e) (emit' e))
    (path : Path) : Shadows (rebuild (onHost build emit) path) (rebuild (onHost build' emit') path) :=
  .bind (hbuild path) fun r => hemit r.event

theorem shadows_now : Shadows (onHost build emit).now (onHost build' emit').now := fun _ _ _ => ⟨rfl, rfl⟩

variable (hrebuild : ∀ path, Shadows (rebuild (onHost build emit) path) (rebuild (onHost build' emit') path))

include hrebuild

theorem shadows_loop (path : Path) : ∀ (fuel : Nat) (m : Memory),
    Shadows (loop o (onHost build emit) path fuel m) (loop o (onHost build' emit') path fuel m)
  | 0, _ => .throw _
  | fuel + 1, m => by
    unfold loop
    cases goesOn o m with
    | false => exact .pure _
    | true =>
      refine .bind (.bind (.lift _) fun _ => .bind (.lift _) fun found => .bind shadows_now fun now =>
        .bind (.ofExcept _) fun next => ?_) fun m => shadows_loop path fuel m
      split
      · exact .pure _
      · exact .bind (.lift _) fun _ => .bind (hrebuild path) fun _ => .pure _

/-- The same watcher does the same on a host, whatever its builds keep. -/
theorem shadows_watch (entry : Path) : Shadows (watch o entry build emit) (watch o entry build' emit') := by
  refine .bind (.lift _) fun p => .bind (.lift _) fun path => ?_
  refine .bind (.bind (hrebuild path) fun _ => .bind (.lift _) fun stamp => .bind shadows_now fun now => .pure _)
    fun m => .bind (.lift _) fun fuel => shadows_loop hrebuild path fuel m

end Watch

/-! ### Events -/

/-- Within all bounds into which the value fits, it is read from its text. -/
def Json.Legible (v : Json) : Prop :=
  ∀ b, v.Fits b → Json.parse b v.write = .ok v

theorem Json.Exact.legible {v : Json} (hv : v.Exact) : v.Legible := fun _ hfits =>
  parse_write hv hfits

/-- No diagnostic holds a double. -/
def BuildResult.Whole : BuildResult → Prop
  | .success .. => True
  | .failure e _ => ∀ d ∈ e.diagnostics, d.toJson.Whole

theorem Envelope.exact_toJson {e : Envelope} (hd : ∀ d ∈ e.diagnostics, d.toJson.Exact) : e.toJson.Exact := by
  refine .obj (by simp) ?_
  simp only [List.forall_mem_cons]
  exact ⟨.bool true, .str _, .str _, .arr (List.forall_mem_map.2 hd), List.forall_mem_nil _⟩

theorem BuildResult.exact_event {r : BuildResult} (hk : r.Keyed) (hw : r.Whole) : r.event.Exact := by
  cases r with
  | success script styled => exact Json.exact_message _ (.str script)
  | failure e stage => exact Json.exact_message _ (Envelope.exact_toJson fun d hd => (hw d hd).exact (hk d hd))

/-! ### Sessions -/

/-- A build of a session. -/
structure Build where
  path : Path
  /-- The host on which it began. -/
  began : Host
  result : BuildResult
  ended : Host

/-- The messages of a build: an event that says what came of it, and before it the news of its first install. -/
inductive Build.Tells (s : Settings) (b : Build) : List Json → Prop where
  | fresh (h : Run.Fresh s b.path b.began) :
      Tells s b [.notice "install-started", .notice "install-finished", b.result.event]
  | stocked (h : ¬ Run.Fresh s b.path b.began) : Tells s b [b.result.event]

/-- The build is a run, and these are its messages. They can be read, unless a diagnostic holds a double. -/
structure Build.Block (s : Settings) (b : Build) (told : List Json) : Prop where
  run : (Run.run s b.path).run b.began = (.ok b.result, b.ended)
  tells : b.Tells s told
  legible : b.result.Whole → ∀ e ∈ told, e.Legible

namespace Command

/-- A run that's put on record. -/
def recorded (s : Settings) (path : Path) : ActionWith (List Build) BuildResult := do
  let began ← (get : Action Host)
  let result ← Run.run s path
  let ended ← (get : Action Host)
  ActionWith.update (· ++ [⟨path, began, result, ended⟩])
  return result

/-- The watcher of the command, with its builds on record. -/
def session (s : Settings) (entry : String) (debounce : Int) (pollInterval : Float) : ActionWith (List Build) Nat :=
  Watch.watch { debounce := .int debounce, pollInterval := .real pollInterval } (Path.ofString entry) (recorded s)
    fun e => tell e

/-- The part of a session from the one host to the other: the builds that were put on record, and their messages. -/
def Records (s : Settings) (x x' : List Build × Host) : Prop :=
  x.2.news = .printed → ∃ builds blocks, x'.1 = x.1 ++ builds ∧ List.Forall₂ (Build.Block s) builds blocks ∧
    x.2.Tells blocks.flatten x'.2

instance (s : Settings) : Chained (Records s) where
  refl x _ := ⟨[], [], (List.append_nil _).symm, .nil, .nothing rfl rfl⟩
  trans := by
    intro x x' x'' ha hb hnews
    obtain ⟨builds, blocks, hrecord, hblocks, htells⟩ := ha hnews
    obtain ⟨more, moreBlocks, hrecord', hmore, htells'⟩ := hb (htells.news.trans hnews)
    refine ⟨builds ++ more, blocks ++ moreBlocks, ?_, List.rel_append hblocks hmore, ?_⟩
    · rw [hrecord', hrecord, List.append_assoc]
    · rw [List.flatten_append]
      exact htells.append htells'

theorem records_of_quiet {s : Settings} {x : List Build × Host} {h : Host} (hh : x.2.Tells [] h) :
    Records s x (x.1, h) := fun _ =>
  ⟨[], [], (List.append_nil _).symm, .nil, hh⟩

theorem lift_run (a : Action α) (x : σ) (h : Host) :
    (liftM a : ActionWith σ α).run (x, h) = ((a.run h).1, (x, (a.run h).2)) := rfl

theorem recorded_run (s : Settings) (path : Path) (builds : List Build) (h : Host) :
    (recorded s path).run (builds, h) = match (Run.run s path).run h with
      | (.ok r, h') => (.ok r, (builds ++ [⟨path, h, r, h'⟩], h'))
      | (.error f, h') => (.error f, (builds, h')) := by
  unfold recorded
  -- nothing is to be found out about the run itself
  generalize Run.run s path = a
  rw [run_bind]
  show (liftM a >>= fun result => _ : ActionWith (List Build) BuildResult).run (builds, h) = _
  rw [run_bind, lift_run]
  rcases a.run h with ⟨_ | _, _⟩ <;> rfl

theorem shadows_recorded (s : Settings) (path : Path) :
    Shadows (recorded s path) (liftM (Run.run s path) : ActionWith Unit BuildResult) := by
  intro builds y h
  rw [recorded_run, lift_run]
  rcases (Run.run s path).run h with ⟨_ | _, _⟩ <;> exact ⟨rfl, rfl⟩

/-- A build is put on record, and its messages are written: the news by the run, the event by the watcher. -/
theorem records_rebuild (s : Settings) (path : Path) :
    Follows (Records s) (Watch.rebuild (Watch.onHost (recorded s) fun e => tell e) path) := by
  rintro ⟨builds, h⟩ hnews
  obtain ⟨r, h', hr, hreportable, hlimits, hfresh, hstocked⟩ := Run.run_tells s path hnews
  let b : Build := ⟨path, h, r, h'⟩
  have hend : ((Watch.rebuild (Watch.onHost (recorded s) fun e => tell e) path).run (builds, h)).2 =
      (builds ++ [b], { h' with stdout := h'.stdout ++ Json.lines [r.event] }) := by
    unfold Watch.rebuild
    rw [run_bind, show (Watch.onHost (recorded s) _).build path = recorded s path from rfl, recorded_run, hr]
    show (builds ++ [b], ((tell r.event).run h').2) = _
    rw [tell_run (hlimits.symm ▸ hreportable.fits_event)]
  have hevent : h'.Tells [r.event] { h' with stdout := h'.stdout ++ Json.lines [r.event] } := ⟨rfl, rfl⟩
  have hblock : ∀ news, h.Tells news h' → b.Tells s (news ++ [r.event]) → (∀ e ∈ news, e.Legible) →
      ∃ added blocks, builds ++ [b] = builds ++ added ∧ List.Forall₂ (Build.Block s) added blocks ∧
        h.Tells blocks.flatten { h' with stdout := h'.stdout ++ Json.lines [r.event] } := by
    intro news htold htells hlegible
    refine ⟨[b], [news ++ [r.event]], rfl, .cons ⟨hr, htells, fun hwhole => ?_⟩ .nil, ?_⟩
    · rw [List.forall_mem_append, List.forall_mem_singleton]
      exact ⟨hlegible, (BuildResult.exact_event hreportable.keyed hwhole).legible⟩
    · rw [List.flatten_singleton]
      exact htold.append hevent
  rw [hend]
  -- a block of three and a block of one differ in the news only
  by_cases hf : Run.Fresh s path h
  · refine hblock Run.opening (hfresh hf) (.fresh hf) ?_
    simp only [Run.opening, List.forall_mem_cons]
    exact ⟨(Json.exact_message _ .null).legible, (Json.exact_message _ .null).legible, List.forall_mem_nil _⟩
  · exact hblock [] (hstocked hf) (.stocked hf) (List.forall_mem_nil _)

theorem records_session (s : Settings) (entry : String) (debounce : Int) (pollInterval : Float) :
    Follows (Records s) (session s entry debounce pollInterval) :=
  Watch.follows_watch records_of_quiet (records_rebuild s) (Path.ofString entry)

/-- Where the settings are refused nothing is watched. -/
theorem runWatch_refused {styles : Bool} {h : Host} {f : Failure}
    (hs : Settings.ofEnvironment h.home h.env [("styles", .bool styles)] = .error f)
    (entry : String) (debounce : Int) (pollInterval : Float) :
    (runWatch entry styles debounce pollInterval).run h = (.error f, h) := by
  have hsettings : (settings [("styles", .bool styles)]).run h = (.error f, h) := by
    unfold settings
    rw [run_get_bind, hs]
    rfl
  unfold runWatch
  rw [run_bind_of_error hsettings]

/-- The session does on the host what the command does. -/
theorem runWatch_run {styles : Bool} {h : Host} {s : Settings}
    (hs : Settings.ofEnvironment h.home h.env [("styles", .bool styles)] = .ok s)
    (entry : String) (debounce : Int) (pollInterval : Float) :
    ((runWatch entry styles debounce pollInterval).run h).2 =
      ((session s entry debounce pollInterval).run ([], { h with news := .printed })).2.2 := by
  let watch : ActionWith Unit Nat := Watch.watch { debounce := .int debounce, pollInterval := .real pollInterval }
    (Path.ofString entry) (fun p => Run.run s p) fun e => tell e
  have hshadows : Shadows (session s entry debounce pollInterval) watch :=
    Watch.shadows_watch (Watch.shadows_rebuild (shadows_recorded s) fun e => .lift _) _
  have hsame : ((session s entry debounce pollInterval).run ([], { h with news := .printed })).2.2 =
      (watch.run ((), { h with news := .printed })).2.2 := (hshadows _ _ _).2
  have hsettings : (settings [("styles", .bool styles)]).run h = (.ok s, h) := by
    unfold settings
    rw [run_get_bind, hs]
    rfl
  rw [hsame]
  unfold runWatch
  rw [run_bind_of_ok hsettings, run_modify_bind]
  -- however the watching ends, the command only makes an exit code of its end
  refine Action.snd_attempt_bind (a := watch.toAction ()) (fun r h' => ?_) { h with news := .printed }
  split <;> rfl

end Command

end Bundler
