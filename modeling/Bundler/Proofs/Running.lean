import Bundler.Proofs.Installing

/-!
# The calls of a run

Every step of a run adds calls of certain kinds to the record (`Host.Adds`), and at most the last of them fails.
Put together (`wp_steps`), the stage at which a run ends says which programs it called and in which order, up to
whether the package manager was needed for what every bundle needs and for what the component lacks
(`BuildResult.kinds`). A run always has a result; only its last call can be one that failed (`Call.Fails`), and then
the run failed; and when the script is compiled, all that the first pass found missing is there (`run_traced`).
-/

namespace Bundler

/-! ### Calls that fail -/

/-- The names that the first pass gives back, from its call alone. -/
def Missing.returned (cache : Cache) (c : Call) : Except Failure (List String) := do
  let names ← names (← c.answer .discover)
  (absent cache names).seenAt c.moment.tree c.moment.cwd

/-- The script that the second pass gives back, from its call alone. -/
def Script.returned (c : Call) : Except Failure String := do
  scriptOf (← c.answer .finalize)

/-- The call isn't what the run needs. A style sheet isn't needed. -/
def Call.Fails (cache : Cache) (c : Call) : Prop :=
  match c.kind with
  | .npm => ¬c.Succeeds
  | .pass .discover => ∃ f, Missing.returned cache c = .error f
  | .pass .finalize => ∃ f, Script.returned c = .error f
  | .pass .styles => False

/-- A call of the package manager that ends with names of specifiers. -/
def Call.AsksFor (cache : Cache) (specifiers : List String) (c : Call) : Prop :=
  ∃ npm batch, c.argv = npm :: (["install", "--prefix", cache.root.text] ++ Installer.flags ++ batch) ∧
    Installer.Named specifiers batch

/-- One of the calls that are made at a workplace. -/
inductive Workplace.Makes (w : Workplace) : Call → Prop where
  | npm (batch : List String) (m : Moment) : w.Makes { Installer.batchCall w batch with moment := m }
  | pass (p : Pass) {fields : List (String × Json)} (hfields : fields.lookup "nodeModules" = none) (m : Moment) :
    w.Makes { w.passCall p (w.config fields) with moment := m }

/-- From one host to a later one, with the calls made in between. -/
structure Host.Adds (P : Call → Prop) (h : Host) (made : List Call) (h' : Host) : Prop where
  calls : h'.calls = h.calls ++ made
  cwd : h'.cwd = h.cwd
  limits : h'.limits = h.limits
  places : ∀ c ∈ made, c.moment.cwd = h.cwd
  bounds : ∀ c ∈ made, c.moment.limits = h.limits
  all : ∀ c ∈ made, P c

namespace Host

variable {P : Call → Prop} {h h' h'' : Host} {a b : List Call}

theorem Alike.adds (hh : h.Alike h') : h.Adds P [] h' :=
  ⟨by rw [hh.calls, List.append_nil], hh.cwd, hh.limits, by simp, by simp, by simp⟩

theorem Adds.append (ha : h.Adds P a h') (hb : h'.Adds P b h'') : h.Adds P (a ++ b) h'' := by
  refine ⟨by rw [hb.calls, ha.calls, List.append_assoc], hb.cwd.trans ha.cwd, hb.limits.trans ha.limits,
    ?_, ?_, List.forall_mem_append.2 ⟨ha.all, hb.all⟩⟩
  · exact List.forall_mem_append.2 ⟨ha.places, fun c hc => (hb.places c hc).trans ha.cwd⟩
  · exact List.forall_mem_append.2 ⟨ha.bounds, fun c hc => (hb.bounds c hc).trans ha.limits⟩

theorem Adds.mono {R : Call → Prop} (hPR : ∀ c, P c → R c) (ha : h.Adds P a h') : h.Adds R a h' :=
  ⟨ha.calls, ha.cwd, ha.limits, ha.places, ha.bounds, fun c hc => hPR c (ha.all c hc)⟩

theorem Adds.since (ha : h'.Adds P a h'') (hh : h.Alike h') : h.Adds P a h'' := hh.adds.append ha

theorem Adds.behind (ha : h.Adds P a h') (hh : h'.Alike h'') : h.Adds P a h'' := by
  have hadds := ha.append (hh.adds (P := P))
  rwa [List.append_nil] at hadds

theorem Alike.adds_called {plan c : Call} (hh : h.Alike h') (hc : h'.Called plan c h'') (hP : P c) :
    h.Adds P [c] h'' := by
  refine ⟨by rw [hc.calls, hh.calls], hc.cwd.trans hh.cwd, hc.limits.trans hh.limits, ?_, ?_, ?_⟩
  · simpa using hc.momentCwd.trans hh.cwd
  · simpa using hc.momentLimits.trans hh.limits
  · simpa using hP

end Host

/-! ### One step of a run after the other -/

/-- A kind of calls, or none. -/
def Call.Kind.when (k : Call.Kind) (b : Bool) : List Call.Kind :=
  if b then [k] else []

namespace Run

variable (w : Workplace)

/-- A call that is made at the workplace, and if it's one of the package manager, for the specifiers. -/
def MakesFor (specifiers : List String) (c : Call) : Prop :=
  w.Makes c ∧ c.AsksFor w.cache specifiers

/-- An install of a run made no call or one of the package manager, which failed if the install did. -/
theorem wp_install {specifiers : List String} (i : Installer) (h : Host) :
    wp ((Installer.install w specifiers).toAction i)
      (fun _ h' => ∃ asked made, h.Adds (MakesFor w specifiers) made h' ∧
        made.map Call.kind = Call.Kind.npm.when asked ∧ ∀ c ∈ made, ¬c.Fails w.cache)
      (fun f h' => f.Plain ∧ ∃ asked made, h.Adds (MakesFor w specifiers) made h' ∧
        made.map Call.kind = Call.Kind.npm.when asked) h := by
  have hidle : ∀ {s' : Installer × Host}, Installer.Idle (i, h) s' → h.Adds (MakesFor w specifiers) [] s'.2 :=
    fun hs => hs.2.adds
  have hasked : ∀ {batch c} {s' : Installer × Host}, Installer.Asked w (i, h) batch c s' →
      Installer.Named specifiers batch → h.Adds (MakesFor w specifiers) [c] s'.2 ∧ c.kind = .npm := by
    rintro batch c s' hs hnamed
    obtain ⟨h₁, hh, hc⟩ := hs.called
    exact ⟨hh.adds_called hc ⟨hc.planned ▸ .npm batch _, _, batch, hs.argv, hnamed⟩, hc.kind⟩
  rw [wp_toAction]
  refine wp_mono _ (Installer.wp_install w specifiers (i, h)) ?_ ?_
  · rintro batch s' (⟨-, hs, -⟩ | ⟨c, hs, -, hnamed, hsucceeds⟩)
    · exact ⟨false, [], hidle hs, rfl, by simp⟩
    · obtain ⟨hadds, hkind⟩ := hasked hs hnamed
      refine ⟨true, [c], hadds, by simp [hkind, Call.Kind.when], ?_⟩
      simpa [Call.Fails, hkind] using hsucceeds
  · rintro f s' ⟨hf, hs | ⟨batch, c, hs, hnamed, -⟩⟩
    · exact ⟨hf, false, [], hidle hs, rfl⟩
    · obtain ⟨hadds, hkind⟩ := hasked hs hnamed
      exact ⟨hf, true, [c], hadds, by simp [hkind, Call.Kind.when]⟩

/-- The news of the first install, and none of another one. -/
def announceIf (first : Bool) (event : String) : Action Unit :=
  if first then Action.announce event else pure ()

/-- Telling the news changes nothing of what counts. -/
theorem quiet_announceIf (first : Bool) (event : String) : (announceIf first event).Quiet := by
  cases first with
  | true => exact Action.quiet_announce event
  | false => exact .pure ()

theorem installBase_eq : installBase w = (do
    let first ← w.cache.needsInstall
    announceIf first "install-started"
    let r ← Action.attempt ((Installer.installBase w w.settings.styles).toAction {})
    announceIf first "install-finished"
    return (← MonadExcept.ofExcept r).2) := by
  unfold installBase
  congr 1
  funext first
  cases first <;> rfl

theorem wp_installBase (h : Host) : wp (installBase w)
    (fun _ h' => ∃ asked made, h.Adds (MakesFor w (basePackages w.settings.styles)) made h' ∧
      made.map Call.kind = Call.Kind.npm.when asked ∧ ∀ c ∈ made, ¬c.Fails w.cache)
    (fun f h' => f.Plain ∧ ∃ asked made, h.Adds (MakesFor w (basePackages w.settings.styles)) made h' ∧
      made.map Call.kind = Call.Kind.npm.when asked) h := by
  rw [installBase_eq, wp_bind]
  refine wp_mono _ (w.cache.looks_needsInstall.quiet h) (fun first h₁ hh₁ => ?_) fun f h₁ ⟨hh₁, hf⟩ =>
    ⟨hf, false, [], hh₁.adds, rfl⟩
  rw [wp_bind]
  refine wp_mono _ ((quiet_announceIf first _).since hh₁) (fun _ h₂ hh₂ => ?_) fun f h₂ ⟨hh₂, hf⟩ =>
    ⟨hf, false, [], hh₂.adds, rfl⟩
  rw [wp_bind, wp_attempt]
  have hstart : ∀ {P made h₃}, h₂.Adds P made h₃ → h.Adds P made h₃ := fun hadds => hadds.since hh₂
  refine wp_mono _ (wp_install w {} h₂) ?_ ?_
  · rintro r h₃ ⟨asked, made, hadds, hkinds, hclean⟩
    rw [wp_bind]
    refine wp_mono _ (quiet_announceIf first _ h₃) (fun _ h₄ hh₄ => ?_) fun f h₄ ⟨hh₄, hf⟩ =>
      ⟨hf, asked, made, (hstart hadds).behind hh₄, hkinds⟩
    exact ⟨asked, made, (hstart hadds).behind hh₄, hkinds, hclean⟩
  · rintro f h₃ ⟨hf, asked, made, hadds, hkinds⟩
    rw [wp_bind]
    refine wp_mono _ (quiet_announceIf first _ h₃) (fun _ h₄ hh₄ => ?_) fun f' h₄ ⟨hh₄, hf'⟩ =>
      ⟨hf', asked, made, (hstart hadds).behind hh₄, hkinds⟩
    exact ⟨hf, asked, made, (hstart hadds).behind hh₄, hkinds⟩

theorem plain_names (answer : Json) : Failure.PlainIn (Missing.names answer) := by
  have hspecifiers : Failure.PlainIn (Missing.specifiers answer) := by
    unfold Missing.specifiers
    dsimp only
    split
    · split
      · exact .ok _
      · exact .error (Failure.plain_bundle rfl (by simp))
    · exact .error (Failure.plain_bundle rfl (by simp))
  have hbare : ∀ specifiers, Failure.PlainIn (Missing.bare specifiers) := fun specifiers =>
    .filterM (fun s => by
      split
      · exact .ok _
      · exact Package.plain_isBare s) specifiers
  exact hspecifiers.bind fun specifiers => (hbare specifiers).bind fun names => Package.plain_distinctNames names

/-- The first pass makes one call, which says alone what the pass gives back. -/
theorem wp_find (entry : Path) (h : Host) : wp (Missing.find w entry)
    (fun missing h' => ∃ c, h.Adds w.Makes [c] h' ∧ c.kind = .pass .discover ∧
      (c.moment.tree = h.tree ∧ h'.tree = h.tree) ∧ Missing.returned w.cache c = .ok missing)
    (fun f h' => f.Reportable h.limits ∧ ∃ c, h.Adds w.Makes [c] h' ∧ c.kind = .pass .discover ∧
      c.moment.tree = h.tree ∧ ∃ f', Missing.returned w.cache c = .error f') h := by
  unfold Missing.find
  rw [wp_bind]
  refine wp_mono _ (w.wp_runPass .discover _ h) ?_ ?_
  · rintro answer h₁ ⟨c, hc, hanswer⟩
    have hkind : c.kind = .pass .discover := hc.kind
    have hadds : h.Adds w.Makes [c] h₁ :=
      (Host.Alike.refl h).adds_called hc (hc.planned ▸ .pass .discover rfl _)
    -- the pass looks after its call what is there, and that is what was there at the call
    have hseenAt : ∀ {h₁ : Host} (names : List String), Missing.names answer = .ok names → h₁.tree = c.moment.tree →
        h.Called (w.passCall .discover (Missing.config w entry)) c h₁ →
        Missing.returned w.cache c = (Missing.absent w.cache names).seenAt h₁.tree h₁.cwd := by
      intro h₁ names hnames htree hc
      unfold Missing.returned
      rw [hanswer]
      show (Missing.names answer >>= fun names => _) = _
      rw [hnames, htree, hc.cwd, ← hc.momentCwd]
      rfl
    rw [wp_bind, wp_ofExcept]
    split
    · next names hnames =>
      rw [wp_bind]
      have hseen := (Missing.reads_absent w.cache names).wp_seenAt (Missing.looks_absent w.cache names) h₁
      have htree : h₁.tree = c.moment.tree := hc.tree.trans (Call.tree_result_of_pass hkind)
      refine wp_mono _ hseen ?_ ?_
      · rintro missing h₂ ⟨rfl, hmissing⟩
        have hreturned : Missing.returned w.cache c = .ok missing := (hseenAt names hnames htree hc).trans hmissing
        have hlog : ∀ l source text, wp (do Action.write l source text; return missing : Action (List String))
            (fun missing h' => ∃ c, h.Adds w.Makes [c] h' ∧ c.kind = .pass .discover ∧
              (c.moment.tree = h.tree ∧ h'.tree = h.tree) ∧ Missing.returned w.cache c = .ok missing)
            (fun f h' => f.Reportable h.limits ∧ ∃ c, h.Adds w.Makes [c] h' ∧ c.kind = .pass .discover ∧
              c.moment.tree = h.tree ∧ ∃ f', Missing.returned w.cache c = .error f') h₂ := by
          intro l source text
          rw [wp_bind, wp_write, wp_pure]
          exact ⟨c, hadds.behind (.log _ _), hkind, ⟨hc.momentTree, htree.trans hc.momentTree⟩, hreturned⟩
        dsimp only
        split
        · exact hlog _ _ _
        · exact hlog _ _ _
      · rintro f h₂ ⟨rfl, hf, hplain⟩
        exact ⟨hplain.reportable, c, hadds, hkind, hc.momentTree, f, (hseenAt names hnames htree hc).trans hf⟩
    · next f hf =>
      refine ⟨(plain_names answer f hf).reportable, c, hadds, hkind, hc.momentTree, f, ?_⟩
      unfold Missing.returned
      rw [hanswer]
      show (Missing.names answer >>= fun names => _) = _
      rw [hf]
      rfl
  · rintro f h₁ ⟨c, hc, hf⟩
    refine ⟨hc.momentLimits ▸ c.reportable_answer _ hf, c,
      (Host.Alike.refl h).adds_called hc (hc.planned ▸ .pass .discover rfl _), hc.kind, hc.momentTree, f, ?_⟩
    unfold Missing.returned
    rw [hf]
    rfl

/-- What is missing is looked for. -/
theorem wp_absentOf (cache : Cache) (missing : List String) (h : Host) :
    wp (missing.filterM fun n => do return !(← cache.isInstalled n))
      (fun absent h' => h' = h ∧ ∀ n ∈ missing, n ∈ absent ∨ cache.Has h.tree h.cwd n)
      (fun f h' => h' = h ∧ f.Plain) h := by
  have hlook : ∀ n h₁, h₁ = h → wp (do return !(← cache.isInstalled n))
      (fun b h₂ => h₂ = h ∧ (cache.isInstalled n).seenAt h.tree h.cwd = .ok !b) (fun f h₂ => h₂ = h ∧ f.Plain) h₁ := by
    rintro n _ rfl
    rw [wp_bind]
    refine wp_mono _ ((cache.reads_isInstalled n).wp_seenAt (cache.looks_isInstalled n) _) ?_ ?_
    · rintro b _ ⟨rfl, hb⟩
      rw [wp_pure, Bool.not_not]
      exact ⟨rfl, hb⟩
    · rintro f _ ⟨rfl, -, hf⟩
      exact ⟨rfl, hf⟩
  refine wp_mono _ (wp_filterM hlook missing rfl) ?_ fun _ _ hf => hf
  rintro absent _ ⟨hsame, -, -, hdropped⟩
  exact ⟨hsame, hdropped⟩

/-- After the install everything is there, as it is looked at once more. -/
theorem wp_installMissing (i : Installer) (missing : List String) (h : Host) : wp (installMissing w i missing)
    (fun _ h' => (∃ asked made, h.Adds (MakesFor w missing) made h' ∧
      made.map Call.kind = Call.Kind.npm.when asked ∧ ∀ c ∈ made, ¬c.Fails w.cache) ∧
      ∀ n ∈ missing, (w.cache.isInstalled n).seenAt h'.tree h'.cwd = .ok true)
    (fun f h' => f.Plain ∧ ∃ asked made, h.Adds (MakesFor w missing) made h' ∧
      made.map Call.kind = Call.Kind.npm.when asked) h := by
  unfold installMissing
  rw [wp_bind]
  refine wp_mono _ (wp_install w i h) ?_ fun f h₁ hf => hf
  rintro _ h₁ ⟨asked, made, hadds, hkinds, hclean⟩
  rw [wp_bind]
  refine wp_mono _ (wp_absentOf w.cache missing h₁) ?_ ?_
  · rintro absent _ ⟨rfl, hdropped⟩
    split
    · exact ⟨Failure.plain_bundle rfl (by simp), asked, made, hadds, hkinds⟩
    · next hempty =>
      have hnil : absent = [] := by simpa using hempty
      refine ⟨⟨asked, made, hadds, hkinds, hclean⟩, fun n hn => ?_⟩
      rcases hdropped n hn with hn | hn
      · simp [hnil] at hn
      · exact hn
  · rintro f _ ⟨rfl, hf⟩
    exact ⟨hf, asked, made, hadds, hkinds⟩

theorem plain_scriptOf (answer : Json) : Failure.PlainIn (Script.scriptOf answer) := by
  unfold Script.scriptOf
  split
  · split
    · exact .error (Failure.plain_bundle rfl (by simp))
    · exact .ok _
  · exact .error (Failure.plain_bundle rfl (by simp))

theorem not_fails_of_returned (cache : Cache) {c : Call} (hc : c.kind = .pass .finalize) {script : String}
    (hscript : Script.returned c = .ok script) : ¬c.Fails cache := by
  unfold Call.Fails
  rw [hc]
  rintro ⟨f, hf⟩
  rw [hscript] at hf
  cases hf

/-- The second pass makes one call, which says alone what the pass gives back, and failed if the pass did. -/
theorem wp_compile (harness : String) (entry : Path) (h : Host) : wp (Script.compile w harness entry)
    (fun script h' => ∃ c, h.Adds w.Makes [c] h' ∧ c.kind = .pass .finalize ∧ c.moment.tree = h.tree ∧
      Script.returned c = .ok script)
    (fun f h' => f.Reportable h.limits ∧ ∃ c, h.Adds w.Makes [c] h' ∧ c.kind = .pass .finalize ∧
      c.moment.tree = h.tree ∧ c.Fails w.cache) h := by
  have hmade : ∀ {c h₁}, h.Called (w.passCall .finalize (Script.config w harness entry)) c h₁ →
      h.Adds w.Makes [c] h₁ := fun hc => (Host.Alike.refl h).adds_called hc (hc.planned ▸ .pass .finalize rfl _)
  have hfails : ∀ {c : Call}, c.kind = .pass .finalize → (c.Fails w.cache ↔ ∃ f, Script.returned c = .error f) := by
    intro c hc
    unfold Call.Fails
    rw [hc]
  unfold Script.compile
  rw [wp_bind]
  refine wp_mono _ (w.wp_runPass .finalize _ h) ?_ ?_
  · rintro answer h₁ ⟨c, hc, hanswer⟩
    have hkind : c.kind = .pass .finalize := hc.kind
    have hreturned : Script.returned c = Script.scriptOf answer := by
      unfold Script.returned
      rw [hanswer]
      rfl
    rw [wp_bind, wp_ofExcept]
    split
    · next script hscript =>
      rw [wp_bind, wp_write, wp_pure]
      exact ⟨c, (hmade hc).behind (.log _ _), hkind, hc.momentTree, hreturned.trans hscript⟩
    · next f hf =>
      exact ⟨(plain_scriptOf answer f hf).reportable, c, hmade hc, hkind, hc.momentTree,
        (hfails hkind).2 ⟨f, hreturned.trans hf⟩⟩
  · rintro f h₁ ⟨c, hc, hf⟩
    have hreturned : Script.returned c = .error f := by
      unfold Script.returned
      rw [hf]
      rfl
    exact ⟨hc.momentLimits ▸ c.reportable_answer _ hf, c, hmade hc, hc.kind, hc.momentTree,
      (hfails hc.kind).2 ⟨f, hreturned⟩⟩

/-! ### Stages -/

section Staged

variable {α : Type} {Q : α → Host → Prop} {E : Halt → Host → Prop} {h : Host}

theorem wp_during (stage : Stage) (a : Action α) :
    wp (during stage a) Q E h = wp a Q (fun f h' => E ⟨f, stage⟩ h') h := by
  have hrun : (during stage a).run h = ((a.run h).1.mapError (⟨·, stage⟩), (a.run h).2) := rfl
  unfold wp
  rw [hrun]
  rcases a.run h with ⟨_ | _, _⟩ <;> rfl

theorem wp_always (a : StateM Host α) : wp (always a) Q E h = Q (a.run h).1 (a.run h).2 := wp_ofState a

theorem wp_advance {Q : Unit → Host → Prop} (before after : Stage) : wp (advance before after) Q E h =
    Q () { h with log := h.log ++ [⟨.debug, source, "Pipeline: " ++ before.name ++ " -> " ++ after.name⟩] } := rfl

end Staged

end Run

namespace Styling

/-- What comes of looking for a style sheet, from what comes of the pass. -/
def ofResult : Except Failure Json → StyleOutcome
  | .ok answer => ofAnswer answer
  | .error f => ofFailure f

/-- The script and whether it has a style sheet, after the calls that looked for one. -/
def applied (script : String) : List Call → String × Bool
  | [] => (script, false)
  | d :: _ =>
    let o := ofResult (d.answer .styles)
    if o.succeeded then (o.apply script, true) else (script, false)

variable (w : Workplace) (script : String)

theorem synthesize_run (h : Host) : (synthesize w script).run h =
    (ofResult ((w.runPass .styles (config w script)).run h).1, ((w.runPass .styles (config w script)).run h).2) := by
  unfold synthesize
  show StateT.run (match ((w.runPass .styles (config w script)).run h).1 with
    | .ok answer => pure (ofAnswer answer)
    | .error f => pure (ofFailure f) : StateM Host StyleOutcome)
    ((w.runPass .styles (config w script)).run h).2 = _
  rcases (w.runPass .styles (config w script)).run h with ⟨_ | _, _⟩ <;> rfl

/-- Looking for a style sheet makes one call, whatever comes of it, and nothing but that call decides. -/
theorem adds_synthesize (h : Host) : ∃ c, h.Adds w.Makes [c] ((synthesize w script).run h).2 ∧
    c.kind = .pass .styles ∧ ((synthesize w script).run h).1 = ofResult (c.answer .styles) := by
  have hmade : ∀ {c h'}, h.Called (w.passCall .styles (config w script)) c h' →
      h.Adds w.Makes [c] h' ∧ c.kind = .pass .styles := fun hc =>
    ⟨(Host.Alike.refl h).adds_called hc (hc.planned ▸ .pass .styles rfl _), hc.kind⟩
  have hwp := w.wp_runPass .styles (config w script) h
  rw [synthesize_run]
  unfold wp at hwp
  split at hwp
  · next hr =>
    obtain ⟨c, hc, hanswer⟩ := hwp
    rw [hr]
    exact ⟨c, (hmade hc).1, (hmade hc).2, by rw [hanswer]⟩
  · next hr =>
    obtain ⟨c, hc, hanswer⟩ := hwp
    rw [hr]
    exact ⟨c, (hmade hc).1, (hmade hc).2, by rw [hanswer]⟩

end Styling

namespace Run

variable (w : Workplace)

/-- A style sheet is asked for if it's wanted. Whatever comes of it, nothing fails. -/
theorem wp_style (script : String) (h : Host) : wp (style w script)
    (fun x h' => ∃ made, h.Adds w.Makes made h' ∧
      made.map Call.kind = (Call.Kind.pass .styles).when w.settings.styles ∧ x = Styling.applied script made)
    (fun _ _ => False) h := by
  unfold style
  cases w.settings.styles with
  | false => exact ⟨[], Host.Alike.adds (.log h _), rfl, rfl⟩
  | true =>
    obtain ⟨c, hadds, hkind, ho⟩ := Styling.adds_synthesize w script h
    show wp (always (Styling.synthesize w script) >>= fun o => _) _ _ h
    rw [wp_bind, wp_always, ho, wp_ite]
    split
    · next hsucceeded =>
      exact ⟨[c], hadds.behind (.log _ _), by simp [hkind, Call.Kind.when], (if_pos hsucceeded).symm⟩
    · next hfailed =>
      exact ⟨[c], hadds.behind (.log _ _), by simp [hkind, Call.Kind.when], (if_neg hfailed).symm⟩

/-! ### All steps of a run -/

/-- When the script is compiled, all that the first pass gave back is installed. -/
def Provided (cache : Cache) (made : List Call) : Prop :=
  ∀ c ∈ made, c.kind = .pass .finalize → ∃ d ∈ made, d.kind = .pass .discover ∧
    ∃ names, Missing.returned cache d = .ok names ∧
      ∀ n ∈ names, (cache.isInstalled n).seenAt c.moment.tree c.moment.cwd = .ok true

/-- The names in a call are those of packages that every bundle needs, or that the first pass gave back. -/
def Wants (cache : Cache) (made : List Call) (c : Call) : Prop :=
  (∃ styles, c.AsksFor cache (basePackages styles)) ∨
    ∃ d ∈ made, d.kind = .pass .discover ∧ ∃ names, Missing.returned cache d = .ok names ∧ c.AsksFor cache names

theorem Wants.mono {cache : Cache} {made more : List Call} {c : Call} (hc : Wants cache made c) (hsub : made ⊆ more) :
    Wants cache more c :=
  hc.imp_right fun ⟨d, hd, hgave⟩ => ⟨d, hsub hd, hgave⟩

theorem wants_of_not_npm {cache : Cache} {made more : List Call} (hnpm : Call.Kind.npm ∉ more.map Call.kind) :
    ∀ c ∈ more, c.kind = .npm → Wants cache made c :=
  fun _ hc hkind => absurd (hkind ▸ List.mem_map_of_mem hc) hnpm

/-- What a run did from one host to a later one. -/
structure Trace (P : Call → Prop) (cache : Cache) (h : Host) (made : List Call) (kinds : List Call.Kind)
    (h' : Host) : Prop where
  adds : h.Adds P made h'
  kinds : made.map Call.kind = kinds
  provided : Provided cache made
  wanted : ∀ c ∈ made, c.kind = .npm → Wants cache made c

namespace Trace

variable {P : Call → Prop} {cache : Cache} {h h' h'' : Host} {made more : List Call}
  {kinds moreKinds : List Call.Kind}

theorem start (hh : h.Alike h') : Trace P cache h [] [] h' :=
  ⟨hh.adds, rfl, by simp [Provided], by simp⟩

theorem behind (ht : Trace P cache h made kinds h') (hh : h'.Alike h'') : Trace P cache h made kinds h'' :=
  ⟨ht.adds.behind hh, ht.kinds, ht.provided, ht.wanted⟩

theorem wanted_append (ht : Trace P cache h made kinds h')
    (hmore : ∀ c ∈ more, c.kind = .npm → Wants cache made c) :
    ∀ c ∈ made ++ more, c.kind = .npm → Wants cache (made ++ more) c := by
  intro c hc hkind
  rcases List.mem_append.1 hc with hc | hc
  · exact (ht.wanted c hc hkind).mono (List.subset_append_left ..)
  · exact (hmore c hc hkind).mono (List.subset_append_left ..)

/-- Calls of other kinds need nothing to be provided. -/
theorem append (ht : Trace P cache h made kinds h') (ha : h'.Adds P more h'') (hk : more.map Call.kind = moreKinds)
    (hfinalize : Call.Kind.pass .finalize ∉ moreKinds) (hwants : ∀ c ∈ more, c.kind = .npm → Wants cache made c) :
    Trace P cache h (made ++ more) (kinds ++ moreKinds) h'' := by
  refine ⟨ht.adds.append ha, by rw [List.map_append, ht.kinds, hk], fun c hc hkind => ?_, ht.wanted_append hwants⟩
  rcases List.mem_append.1 hc with hc | hc
  · obtain ⟨d, hd, hprovided⟩ := ht.provided c hc hkind
    exact ⟨d, List.mem_append_left _ hd, hprovided⟩
  · exact absurd (hk ▸ hkind ▸ List.mem_map_of_mem hc) hfinalize

/-- The second pass is called when all that the first one gave back is installed. -/
theorem append_finalize {c d : Call} (ht : Trace P cache h made kinds h') (ha : h'.Adds P [c] h'')
    (hc : c.kind = .pass .finalize) (htree : c.moment.tree = h'.tree) (hd : d ∈ made)
    (hkind : d.kind = .pass .discover) {missing : List String} (hmissing : Missing.returned cache d = .ok missing)
    (hthere : ∀ n ∈ missing, (cache.isInstalled n).seenAt h'.tree h'.cwd = .ok true) :
    Trace P cache h (made ++ [c]) (kinds ++ [.pass .finalize]) h'' := by
  have hother : Call.Kind.npm ∉ [c].map Call.kind := by simp [hc]
  have hwants := ht.wanted_append (wants_of_not_npm hother)
  refine ⟨ht.adds.append ha, by simp [ht.kinds, hc], fun e he hkind' => ?_, hwants⟩
  rcases List.mem_append.1 he with he | he
  · obtain ⟨d', hd', hprovided⟩ := ht.provided e he hkind'
    exact ⟨d', List.mem_append_left _ hd', hprovided⟩
  · obtain rfl := List.mem_singleton.1 he
    refine ⟨d, List.mem_append_left _ hd, hkind, missing, hmissing, ?_⟩
    rw [htree, ha.places e (List.mem_singleton_self e)]
    exact hthere

end Trace

theorem finalize_not_mem_npm (asked : Bool) : Call.Kind.pass .finalize ∉ Call.Kind.npm.when asked := by
  cases asked <;> simp [Call.Kind.when]

theorem kind_of_when {made : List Call} {kind : Call.Kind} {b : Bool} (hk : made.map Call.kind = kind.when b) :
    ∀ c ∈ made, c.kind = kind := by
  intro c hc
  have hmem := hk ▸ List.mem_map_of_mem hc
  unfold Call.Kind.when at hmem
  split at hmem
  · simpa using hmem
  · simp at hmem

/-- A style sheet isn't needed. -/
theorem not_fails_of_styles (cache : Cache) {made : List Call} {wanted : Bool}
    (hk : made.map Call.kind = (Call.Kind.pass .styles).when wanted) {c : Call} (hc : c ∈ made) :
    ¬c.Fails cache := by
  simp [Call.Fails, kind_of_when hk c hc]

theorem length_le_one_of_npm {made : List Call} {asked : Bool}
    (hk : made.map Call.kind = Call.Kind.npm.when asked) : made.length ≤ 1 := by
  rw [← List.length_map (f := Call.kind), hk]
  cases asked <;> simp [Call.Kind.when]

/-- If nothing failed before, then nothing did but the last. -/
theorem clean_dropLast {p : Call → Prop} {made more : List Call} (hmade : ∀ c ∈ made, p c)
    (hmore : more.length ≤ 1) : ∀ c ∈ (made ++ more).dropLast, p c := by
  intro c hc
  obtain _ | ⟨d, _ | ⟨e, more⟩⟩ := more
  · rw [List.append_nil] at hc
    exact hmade c (List.dropLast_subset _ hc)
  · rw [List.dropLast_concat] at hc
    exact hmade c hc
  · simp at hmore

end Run

open Call.Kind in
/-- The kinds of the calls up to a stage, where the package manager was called or not for what every bundle
needs and for what the component lacks. -/
def Stage.kinds (base lacking : Bool) : Stage → List Call.Kind
  | .init => []
  | .cacheReady => npm.when base
  | .baseInstalled => npm.when base ++ [.pass .discover]
  | .discovered => npm.when base ++ [.pass .discover] ++ npm.when lacking
  | _ => npm.when base ++ [.pass .discover] ++ npm.when lacking ++ [.pass .finalize]

/-- The kinds of all calls of a run with that result. -/
def BuildResult.kinds (styles base lacking : Bool) : BuildResult → List Call.Kind
  | .success .. => Stage.done.kinds base lacking ++ (Call.Kind.pass .styles).when styles
  | .failure _ stage => stage.kinds base lacking

namespace Run

/-- The stages at which a run can fail. -/
def failing : List Stage :=
  [.init, .cacheReady, .baseInstalled, .discovered, .missingInstalled]

/-- The workplace of a run that begins on the host. -/
def Found (s : Settings) (h : Host) (w : Workplace) : Prop :=
  ∃ h₁ h₂, h.Alike h₁ ∧ (workplace s).run h₁ = (.ok w, h₂)

/-- One of the calls of a run that begins on the host. -/
def Makes (s : Settings) (h : Host) (c : Call) : Prop :=
  ∃ w, Found s h w ∧ w.Makes c

theorem wp_workplace (s : Settings) {h h₁ : Host} (hh : h.Alike h₁) : wp (workplace s)
    (fun w h' => h₁.Same h' ∧ w.cache = Cache.ofSettings s ∧ w.settings = s ∧ Found s h w)
    (fun f h' => h₁.Same h' ∧ f.Plain) h₁ := by
  have hfields : wp (workplace s) (fun w _ => w.cache = Cache.ofSettings s ∧ w.settings = s) (fun _ _ => True)
      h₁ := by
    unfold workplace
    rw [wp_bind]
    exact wp_of_forall _ (fun t h' => ⟨rfl, rfl⟩) fun _ _ => trivial
  have hlooks := looks_workplace s h₁
  rw [wp_iff] at hlooks hfields ⊢
  exact ⟨fun w h' hr => ⟨hlooks.1 w h' hr, (hfields.1 w h' hr).1, (hfields.1 w h' hr).2, h₁, h', hh, hr⟩, hlooks.2⟩

/-- The run got to its end. -/
def Ended (s : Settings) (h h' : Host) : Prop :=
  ∃ base lacking made, Trace (Makes s h) (Cache.ofSettings s) h made
      (Stage.done.kinds base lacking ++ (Call.Kind.pass .styles).when s.styles) h' ∧
    ∀ c ∈ made, ¬c.Fails (Cache.ofSettings s)

/-- The run was halted. -/
def Halted (s : Settings) (h : Host) (halt : Halt) (h' : Host) : Prop :=
  halt.failure.Reportable h.limits ∧ halt.stage ∈ failing ∧
    ∃ base lacking made, Trace (Makes s h) (Cache.ofSettings s) h made (halt.stage.kinds base lacking) h' ∧
      (∀ c ∈ made.dropLast, ¬c.Fails (Cache.ofSettings s)) ∧
      ∀ c ∈ made, c.kind = .pass .finalize → c.Fails (Cache.ofSettings s)

theorem ne_finalize {made : List Call} {kinds : List Call.Kind} (hk : made.map Call.kind = kinds)
    (hfinalize : Call.Kind.pass .finalize ∉ kinds) : ∀ c ∈ made, c.kind ≠ .pass .finalize := by
  intro c hc hkind
  exact hfinalize (hk ▸ hkind ▸ List.mem_map_of_mem hc)

theorem finalize_not_mem_discovered (base lacking : Bool) :
    Call.Kind.pass .finalize ∉ Stage.discovered.kinds base lacking := by
  simp [Stage.kinds, finalize_not_mem_npm]

/-- A run that is halted before the second pass didn't call it. -/
theorem Halted.early {s : Settings} {h h' : Host} {f : Failure} {stage : Stage} (hf : f.Reportable h.limits)
    (hstage : stage = .init ∨ stage = .cacheReady ∨ stage = .baseInstalled ∨ stage = .discovered)
    {base lacking : Bool} {made : List Call}
    (ht : Trace (Makes s h) (Cache.ofSettings s) h made (stage.kinds base lacking) h')
    (hclean : ∀ c ∈ made.dropLast, ¬c.Fails (Cache.ofSettings s)) : Halted s h ⟨f, stage⟩ h' := by
  have hfinalize : Call.Kind.pass .finalize ∉ stage.kinds base lacking := by
    rcases hstage with rfl | rfl | rfl | rfl <;> simp [Stage.kinds, finalize_not_mem_npm]
  refine ⟨hf, ?_, base, lacking, made, ht, hclean, fun c hc hkind => ?_⟩
  · rcases hstage with rfl | rfl | rfl | rfl <;> simp [failing]
  · exact absurd hkind (ne_finalize ht.kinds hfinalize c hc)

/-- The steps once everything is installed. -/
def compiling (w : Workplace) (resolved : Path) : Staged (String × Bool) := do
  advance .discovered .missingInstalled
  let script ← during .missingInstalled (Script.compile w (Harness.text resolved) resolved)
  advance .missingInstalled .finalized
  style w script

/-- The steps once it's known what is missing. -/
def completing (w : Workplace) (installer : Installer) (resolved : Path) (missing : List String) :
    Staged (String × Bool) := do
  advance .baseInstalled .discovered
  during .discovered (installMissing w installer missing)
  compiling w resolved

/-- The steps once the base is installed. -/
def discovering (w : Workplace) (installer : Installer) (resolved : Path) : Staged (String × Bool) := do
  advance .cacheReady .baseInstalled
  let missing ← during .baseInstalled (Missing.find w resolved)
  completing w installer resolved missing

theorem steps_eq (s : Settings) (entry : Path) : steps s entry = (do
    during .init (Cache.ofSettings s).ensure
    advance .init .cacheReady
    let resolved ← during .cacheReady (entryFile entry)
    let w ← during .cacheReady (workplace s)
    let installer ← during .cacheReady (installBase w)
    discovering w installer resolved) := rfl

section Stages

variable {s : Settings} {h h₁ : Host} {w : Workplace} {made : List Call} {base lacking : Bool}

theorem wp_compiling (hw : Found s h w) (hcache : w.cache = Cache.ofSettings s) (hsettings : w.settings = s)
    (ht : Trace (Makes s h) w.cache h made (Stage.discovered.kinds base lacking) h₁)
    (hclean : ∀ c ∈ made, ¬c.Fails w.cache) {d : Call} (hd : d ∈ made) (hkind : d.kind = .pass .discover)
    {missing : List String} (hmissing : Missing.returned w.cache d = .ok missing)
    (hthere : ∀ n ∈ missing, (w.cache.isInstalled n).seenAt h₁.tree h₁.cwd = .ok true) (resolved : Path) :
    wp (compiling w resolved) (fun _ h' => Ended s h h') (fun halt h' => Halted s h halt h') h₁ := by
  have hnext : ∀ {c h₂}, h₁.Adds w.Makes [c] h₂ → c.kind = .pass .finalize → c.moment.tree = h₁.tree →
      Trace (Makes s h) w.cache h (made ++ [c]) (Stage.missingInstalled.kinds base lacking) h₂ :=
    fun hadds hc htree => ht.append_finalize (hadds.mono fun _ hmakes => ⟨w, hw, hmakes⟩) hc htree hd hkind hmissing
      hthere
  unfold compiling
  rw [wp_bind, wp_advance, wp_bind, wp_during]
  refine wp_mono _ (wp_compile w _ resolved _) ?_ ?_
  · rintro script h₂ ⟨c, hadds, hc, htree, hscript⟩
    have hfine := not_fails_of_returned w.cache hc hscript
    have ht₂ := hnext (hadds.since (.log _ _)) hc htree
    rw [wp_bind, wp_advance]
    refine wp_mono _ (wp_style w script _) ?_ fun _ _ hno => hno.elim
    rintro _ h₃ ⟨more, hmore, hkinds, -⟩
    have hstyles : more.map Call.kind = (Call.Kind.pass .styles).when s.styles := by rw [hkinds, hsettings]
    have hfinalize : Call.Kind.pass .finalize ∉ (Call.Kind.pass .styles).when s.styles := by
      cases s.styles <;> simp [Call.Kind.when]
    have hnpm : Call.Kind.npm ∉ (Call.Kind.pass .styles).when s.styles := by cases s.styles <;> simp [Call.Kind.when]
    have ht₃ := (ht₂.behind (.log _ _)).append (hmore.mono fun _ hmakes => ⟨w, hw, hmakes⟩) hstyles hfinalize
      (wants_of_not_npm (hstyles ▸ hnpm))
    have hclean₂ := List.forall_mem_append.2 ⟨hclean, List.forall_mem_singleton.2 hfine⟩
    have hclean₃ := List.forall_mem_append.2 ⟨hclean₂, fun e he => not_fails_of_styles w.cache hstyles he⟩
    exact ⟨base, lacking, made ++ [c] ++ more, hcache ▸ ht₃, hcache ▸ hclean₃⟩
  · rintro f h₂ ⟨hf, c, hadds, hc, htree, hfails⟩
    have ht₂ := hnext (hadds.since (.log _ _)) hc htree
    refine ⟨ht.adds.limits ▸ hf, by simp [failing], base, lacking, made ++ [c], hcache ▸ ht₂,
      hcache ▸ clean_dropLast hclean (by simp), fun e he hkind' => ?_⟩
    rcases List.mem_append.1 he with he | he
    · exact absurd hkind' (ne_finalize ht.kinds (finalize_not_mem_discovered base lacking) e he)
    · exact hcache ▸ List.mem_singleton.1 he ▸ hfails

theorem wp_completing (hw : Found s h w) (hcache : w.cache = Cache.ofSettings s) (hsettings : w.settings = s)
    (ht : Trace (Makes s h) w.cache h made (Stage.baseInstalled.kinds base lacking) h₁)
    (hclean : ∀ c ∈ made, ¬c.Fails w.cache) {d : Call} (hd : d ∈ made) (hkind : d.kind = .pass .discover)
    {missing : List String} (hmissing : Missing.returned w.cache d = .ok missing) (installer : Installer)
    (resolved : Path) : wp (completing w installer resolved missing) (fun _ h' => Ended s h h')
      (fun halt h' => Halted s h halt h') h₁ := by
  have hnext : ∀ {asked more h₂}, h₁.Adds (MakesFor w missing) more h₂ →
      more.map Call.kind = Call.Kind.npm.when asked →
      Trace (Makes s h) w.cache h (made ++ more) (Stage.discovered.kinds base asked) h₂ :=
    fun hadds hkinds => ht.append (hadds.mono fun _ hmakes => ⟨w, hw, hmakes.1⟩) hkinds (finalize_not_mem_npm _)
      fun c hc _ => .inr ⟨d, hd, hkind, missing, hmissing, (hadds.all c hc).2⟩
  unfold completing
  rw [wp_bind, wp_advance, wp_bind, wp_during]
  refine wp_mono _ (wp_installMissing w installer missing _) ?_ ?_
  · rintro _ h₂ ⟨⟨asked, more, hadds, hkinds, hfine⟩, hthere⟩
    have hclean' := List.forall_mem_append.2 ⟨hclean, hfine⟩
    exact wp_compiling hw hcache hsettings (hnext (hadds.since (.log _ _)) hkinds) hclean'
      (List.mem_append_left _ hd) hkind hmissing hthere resolved
  · rintro f h₂ ⟨hf, asked, more, hadds, hkinds⟩
    exact .early hf.reportable (by simp) (hcache ▸ hnext (hadds.since (.log _ _)) hkinds)
      (hcache ▸ clean_dropLast hclean (length_le_one_of_npm hkinds))

theorem wp_discovering (hw : Found s h w) (hcache : w.cache = Cache.ofSettings s) (hsettings : w.settings = s)
    (ht : Trace (Makes s h) w.cache h made (Stage.cacheReady.kinds base lacking) h₁)
    (hclean : ∀ c ∈ made, ¬c.Fails w.cache) (installer : Installer) (resolved : Path) :
    wp (discovering w installer resolved) (fun _ h' => Ended s h h') (fun halt h' => Halted s h halt h') h₁ := by
  have hnext : ∀ {c h₂}, h₁.Adds w.Makes [c] h₂ → c.kind = .pass .discover →
      Trace (Makes s h) w.cache h (made ++ [c]) (Stage.baseInstalled.kinds base lacking) h₂ :=
    fun hadds hc => ht.append (hadds.mono fun _ hmakes => ⟨w, hw, hmakes⟩) (by simp [hc]) (by simp)
      (wants_of_not_npm (by simp [hc]))
  unfold discovering
  rw [wp_bind, wp_advance, wp_bind, wp_during]
  refine wp_mono _ (wp_find w resolved _) ?_ ?_
  · rintro missing h₂ ⟨c, hadds, hc, -, hmissing⟩
    have hfine : ¬c.Fails w.cache := by simp [Call.Fails, hc, hmissing]
    have hclean' := List.forall_mem_append.2 ⟨hclean, List.forall_mem_singleton.2 hfine⟩
    exact wp_completing hw hcache hsettings (hnext (hadds.since (.log _ _)) hc) hclean'
      (List.mem_append_right _ (List.mem_singleton_self c)) hc hmissing installer resolved
  · rintro f h₂ ⟨hf, c, hadds, hc, -⟩
    exact .early (ht.adds.limits ▸ hf) (by simp) (hcache ▸ hnext (hadds.since (.log _ _)) hc)
      (hcache ▸ clean_dropLast hclean (by simp))

end Stages

/-- Up to the workplace a run calls nothing, and its steps change the host only as they make the cache ready. -/
theorem wp_steps_of_workplace {s : Settings} {entry : Path} {h : Host} {Q : String × Bool → Host → Prop}
    {E : Halt → Host → Prop} (hearly : ∀ {halt h'}, halt.stage = .init ∨ halt.stage = .cacheReady →
      halt.failure.Plain → h.Alike h' → E halt h')
    (hnext : ∀ resolved {w h₁ h₂}, ((Cache.ofSettings s).ensure.run h).2.Same h₁ → h.Alike h₁ →
      (workplace s).run h₁ = (.ok w, h₂) →
      wp (do let installer ← during .cacheReady (installBase w); discovering w installer resolved) Q E h₂) :
    wp (steps s entry) Q E h := by
  rw [steps_eq, wp_bind, wp_during]
  refine wp_mono _ (wp_and_run ((Cache.ofSettings s).quiet_ensure h)) ?_ fun f h₁ ⟨⟨hh₁, hf⟩, _⟩ =>
    hearly (.inl rfl) hf hh₁
  rintro _ h₁ ⟨hh₁, hensured⟩
  rw [wp_bind, wp_advance, wp_bind, wp_during]
  refine wp_mono _ ((looks_entryFile entry).since (.log h₁ _)) ?_ fun f h₂ ⟨hsame, hf⟩ =>
    hearly (.inr rfl) hf (hh₁.trans hsame.alike)
  rintro resolved h₂ hsame
  have hh₂ := hh₁.trans hsame.alike
  rw [wp_bind, wp_during]
  refine wp_mono _ (wp_and_run (looks_workplace s h₂)) ?_ fun f h₃ ⟨⟨hsame₃, hf⟩, _⟩ =>
    hearly (.inr rfl) hf (hh₂.trans hsame₃.alike)
  rintro w h₃ ⟨-, hw⟩
  exact hnext resolved (by rw [hensured]; exact hsame) hh₂ hw

theorem wp_steps (s : Settings) (entry : Path) (h : Host) : wp (steps s entry) (fun _ h' => Ended s h h')
    (fun halt h' => Halted s h halt h') h := by
  refine wp_steps_of_workplace ?_ fun resolved {w h₁ h₂} _ hh₁ hrun => ?_
  · rintro ⟨f, stage⟩ h' (rfl | rfl) hf hh
    · exact @Halted.early _ _ _ _ _ hf.reportable (by simp) false false [] (.start hh) (by simp)
    · exact @Halted.early _ _ _ _ _ hf.reportable (by simp) false false [] (.start hh) (by simp)
  obtain ⟨hsame, hcache, hsettings, hw⟩ := (wp_iff.1 (wp_workplace s hh₁)).1 w h₂ hrun
  have hh₂ := hh₁.trans hsame.alike
  have hnext : ∀ {asked made h₃}, h₂.Adds (MakesFor w (basePackages w.settings.styles)) made h₃ →
      made.map Call.kind = Call.Kind.npm.when asked →
      Trace (Makes s h) w.cache h made (Stage.cacheReady.kinds asked false) h₃ := fun hadds hkinds =>
    (Trace.start hh₂).append (hadds.mono fun _ hmakes => ⟨w, hw, hmakes.1⟩) hkinds (finalize_not_mem_npm _)
      fun c hc _ => .inl ⟨_, (hadds.all c hc).2⟩
  rw [wp_bind, wp_during]
  refine wp_mono _ (wp_installBase w h₂) ?_ ?_
  · rintro installer h₃ ⟨asked, made, hadds, hkinds, hclean⟩
    exact wp_discovering hw hcache hsettings (hnext hadds hkinds) hclean installer resolved
  · rintro f h₃ ⟨hf, asked, made, hadds, hkinds⟩
    exact .early hf.reportable (by simp) (hcache ▸ hnext hadds hkinds)
      (@clean_dropLast _ [] made (by simp) (length_le_one_of_npm hkinds))

/-! ### Runs -/

/-- A failure that can be reported has a report. -/
theorem ofFailure_of_reportable (rules : List Rule) {l : Limits} {f : Failure} (hf : f.Reportable l) :
    ∃ e, ∀ b, Envelope.ofFailure b rules f = .ok e := by
  unfold Envelope.ofFailure
  cases ht : f.explicitType with
  | some t =>
    have htype : ErrorType.ofJson? t = some .network := by
      unfold Failure.explicitType at ht
      split at ht
      · next b =>
        unfold BundleFault.explicitType at ht
        rw [hf.untyped b rfl] at ht
        split at ht
        · cases ht
          exact ErrorType.ofName?_name .network
        · cases ht
      · cases ht
    unfold Envelope.ofJson
    dsimp only
    rw [htype]
    exact ⟨_, fun _ => rfl⟩
  | none => exact ⟨_, fun _ => rfl⟩

theorem wp_halted {l : Limits} {halt : Halt} (hf : halt.failure.Reportable l) (h : Host) : wp (halted halt)
    (fun r h' => h.Alike h' ∧ ∃ e, r = .failure e halt.stage) (fun _ _ => False) h := by
  obtain ⟨e, he⟩ := ofFailure_of_reportable Rule.table hf
  unfold halted
  rw [wp_bind, wp_get, wp_bind, he, wp_ofExcept]
  dsimp only
  rw [wp_bind, wp_write, wp_pure]
  exact ⟨.log h _, e, rfl⟩

/-- What the calls of a run have to do with its result. -/
structure Traced (s : Settings) (h : Host) (r : BuildResult) (made : List Call) : Prop where
  /-- They are of the kinds that belong to the result, which is the beginning of what there is at most. -/
  kinds : ∃ base lacking, made.map Call.kind = r.kinds s.styles base lacking ∧
    made.map Call.kind <+: Stage.done.kinds base lacking ++ [.pass .styles]
  stage : ∀ e stage, r = .failure e stage → stage ∈ failing
  /-- A call that failed is the last one. -/
  last : ∀ before c after, made = before ++ c :: after → c.Fails (Cache.ofSettings s) → after = []
  failed : ∀ c ∈ made, c.Fails (Cache.ofSettings s) → ∃ e stage, r = .failure e stage
  /-- Nothing fails any more once there is a script. -/
  finished : ∀ c ∈ made, c.kind = .pass .finalize → ¬c.Fails (Cache.ofSettings s) →
    ∃ script styled, r = .success script styled
  provided : Provided (Cache.ofSettings s) made
  makes : ∀ c ∈ made, Makes s h c
  places : ∀ c ∈ made, c.moment.cwd = h.cwd
  bounds : ∀ c ∈ made, c.moment.limits = h.limits

theorem kinds_prefix_of_failing {stage : Stage} (hstage : stage ∈ failing) (base lacking : Bool) :
    stage.kinds base lacking <+: Stage.done.kinds base lacking ++ [.pass .styles] := by
  simp only [failing, List.mem_cons, List.not_mem_nil, or_false] at hstage
  rcases hstage with rfl | rfl | rfl | rfl | rfl <;> simp [Stage.kinds]

theorem Ended.traced {s : Settings} {h h' : Host} (he : Ended s h h') (script : String) (styled : Bool) :
    ∃ made, h'.calls = h.calls ++ made ∧ Traced s h (.success script styled) made := by
  obtain ⟨base, lacking, made, ht, hclean⟩ := he
  refine ⟨made, ht.adds.calls, ⟨base, lacking, ht.kinds, ?_⟩, nofun, ?_, ?_,
    fun _ _ _ _ => ⟨script, styled, rfl⟩, ht.provided, ht.adds.all, ht.adds.places,
    ht.adds.bounds⟩
  · rw [ht.kinds]
    cases s.styles <;> simp [Call.Kind.when]
  · rintro before c after rfl hfails
    exact absurd hfails (hclean c (by simp))
  · exact fun c hc hfails => absurd hfails (hclean c hc)

theorem Halted.traced {s : Settings} {h h' : Host} {halt : Halt} (hh : Halted s h halt h') (e : Envelope) :
    ∃ made, h'.calls = h.calls ++ made ∧ Traced s h (.failure e halt.stage) made := by
  obtain ⟨-, hstage, base, lacking, made, ht, hclean, hfinalize⟩ := hh
  refine ⟨made, ht.adds.calls, ⟨base, lacking, ht.kinds, ?_⟩, ?_, ?_, ?_,
    fun c hc hkind hfine => absurd (hfinalize c hc hkind) hfine, ht.provided, ht.adds.all, ht.adds.places,
    ht.adds.bounds⟩
  · rw [ht.kinds]
    exact kinds_prefix_of_failing hstage base lacking
  · rintro _ _ ⟨⟩
    exact hstage
  · rintro before c after rfl hfails
    by_contra hafter
    refine hclean c ?_ hfails
    rw [List.dropLast_append_of_ne_nil (List.cons_ne_nil c after), List.dropLast_cons_of_ne_nil hafter]
    simp
  · exact fun c hc hfails => ⟨e, halt.stage, rfl⟩

theorem wp_run (s : Settings) (entry : Path) (h : Host) : wp (run s entry)
    (fun r h' => ∃ made, h'.calls = h.calls ++ made ∧ Traced s h r made) (fun _ _ => False) h := by
  have hsteps := wp_steps s entry h
  unfold wp at hsteps
  unfold run
  rw [wp_bind, wp_ofState]
  split at hsteps
  · next x h₁ hr =>
    rw [hr]
    obtain ⟨made, hcalls, htraced⟩ := hsteps.traced x.1 x.2
    exact ⟨made, hcalls, htraced⟩
  · next halt h₁ hr =>
    rw [hr]
    refine wp_mono _ (wp_halted hsteps.1 h₁) ?_ fun _ _ hno => hno
    rintro r h₂ ⟨hh, e, rfl⟩
    obtain ⟨made, hcalls, htraced⟩ := hsteps.traced e
    exact ⟨made, hh.calls.trans hcalls, htraced⟩

theorem wp_runJson (s : Settings) (entry : Json) (h : Host) : wp (runJson s entry)
    (fun r h' => ∃ made, h'.calls = h.calls ++ made ∧ Traced s h r made) (fun _ _ => False) h := by
  unfold runJson
  split
  · exact wp_run s _ h
  · have hf : (Failure.mismatch (.notPath entry.typeName)).Reportable h.limits := (Failure.plain_own rfl).reportable
    have hhalted : Halted s h ⟨.mismatch (.notPath entry.typeName), .init⟩ h :=
      @Halted.early _ _ _ _ _ hf (by simp) false false [] (.start (.refl h)) (by simp)
    refine wp_mono _ (wp_halted hf h) ?_ fun _ _ hno => hno
    rintro r h₁ ⟨hh, e, rfl⟩
    obtain ⟨made, hcalls, htraced⟩ := hhalted.traced e
    exact ⟨made, hh.calls.trans hcalls, htraced⟩

end Run

end Bundler
