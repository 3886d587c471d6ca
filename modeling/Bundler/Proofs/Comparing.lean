import Mathlib.Control.Basic
import Bundler.Proofs.Growing
import Bundler.Proofs.Reporting
import Bundler.Proofs.Spelling

/-!
# Runs with and without a style sheet

Two runs from one host, one that looks for a style sheet and one that doesn't. They read in two places whether one
is wanted: the first install has other packages to ask for, and the last step looks for a style sheet or not. Where
all of these packages are there the first install does nothing at all (`Run.installBase_run`), so that both runs go
through the same steps up to the script (`Run.scripted`). The last step can't fail, and makes its call after all
others. So nothing that comes of it can be seen in anything but the result of a success (`Run.run_styles`).
-/

namespace Bundler

/-! ### Nothing is installed that is there -/

namespace Installer

variable (w : Workplace)

theorem wp_isPending_of_installed {n : String} {s : Installer × Host} (hn : n ∉ s.1.requested)
    (hthere : (w.cache.isInstalled n).seenAt s.2.tree s.2.cwd = .ok true) :
    wp (isPending w n) (fun b s' => s' = s ∧ b = false) (fun _ _ => False) s := by
  unfold isPending
  rw [wp_bind, wp_kept, if_neg (by simpa using hn), wp_bind, wp_lift, (w.cache.reads_isInstalled n).wp_eq, hthere]
  exact ⟨rfl, rfl⟩

theorem distinctNames_base (styles : Bool) :
    Package.distinctNames (basePackages styles) = .ok (basePackages styles) := by
  cases styles <;> rfl

theorem base_subset (styles : Bool) : basePackages styles ⊆ basePackages true := by
  cases styles <;> simp [basePackages]

theorem wp_installBase_of_installed {styles : Bool} {h : Host}
    (hthere : ∀ n ∈ basePackages styles, w.cache.Has h.tree h.cwd n) :
    wp (installBase w styles) (fun _ s' => s' = ({}, h)) (fun _ _ => False) ({}, h) := by
  unfold installBase install
  rw [wp_bind]
  unfold pending
  rw [wp_bind, wp_ofExcept, distinctNames_base]
  have hnone : ∀ n ∈ basePackages styles, wp (isPending w n) (fun b s' => s' = ({}, h) ∧ b = false)
      (fun _ _ => False) ({}, h) := fun n hn =>
    wp_isPending_of_installed w List.not_mem_nil (hthere n hn)
  refine wp_mono _ (wp_filterM_none hnone) ?_ fun _ _ hno => hno
  rintro batch s' ⟨rfl, rfl⟩
  exact rfl

end Installer

namespace Run

/-- The first install does nothing where all is there that it would ask for. -/
theorem installBase_run (w : Workplace) {h : Host}
    (hthere : ∀ n ∈ basePackages w.settings.styles, w.cache.Has h.tree h.cwd n) :
    (installBase w).run h = (.ok {}, h) := by
  have hwp : wp (installBase w) (fun i h' => h' = h ∧ i = {}) (fun _ _ => False) h := by
    unfold installBase Cache.needsInstall
    have hreact := hthere "react" (by simp [basePackages])
    unfold Cache.Has at hreact
    rw [wp_bind, wp_bind, (w.cache.reads_isInstalled "react").wp_eq, hreact]
    show wp (Action.attempt ((Installer.installBase w w.settings.styles).toAction {}) >>= fun r => _) _ _ h
    rw [wp_bind, wp_attempt, wp_toAction]
    refine wp_mono _ (Installer.wp_installBase_of_installed w hthere) ?_ fun _ _ hno => hno.elim
    rintro batch s' rfl
    exact ⟨rfl, rfl⟩
  obtain ⟨i, h', hr, rfl, rfl⟩ := exists_run_of_wp hwp
  exact hr

/-! ### The steps up to the script -/

/-- The workplace of a run with these tools. -/
def placeOf (s : Settings) (tools : Toolchain) : Workplace :=
  ⟨Cache.ofSettings s, tools, s⟩

/-- The steps before anything is installed. -/
def preparing (s : Settings) (entry : Path) : Staged (Path × Toolchain) := do
  during .init (Cache.ofSettings s).ensure
  advance .init .cacheReady
  let resolved ← during .cacheReady (entryFile entry)
  let tools ← during .cacheReady (Toolchain.discover s.node)
  return (resolved, tools)

/-- The steps from there to the script. -/
def scripting (w : Workplace) (installer : Installer) (resolved : Path) : Staged String := do
  advance .cacheReady .baseInstalled
  let missing ← during .baseInstalled (Missing.find w resolved)
  advance .baseInstalled .discovered
  during .discovered (installMissing w installer missing)
  advance .discovered .missingInstalled
  let script ← during .missingInstalled (Script.compile w (Harness.text resolved) resolved)
  advance .missingInstalled .finalized
  return script

theorem discovering_eq (w : Workplace) (installer : Installer) (resolved : Path) :
    discovering w installer resolved = scripting w installer resolved >>= style w := by
  simp only [discovering, completing, compiling, scripting, bind_assoc, pure_bind]

theorem during_run {α : Type} (stage : Stage) (a : Action α) (h : Host) :
    (during stage a).run h = ((a.run h).1.mapError (⟨·, stage⟩), (a.run h).2) := rfl

theorem during_bind {α β : Type} (stage : Stage) (a : Action α) (f : α → Action β) :
    during stage (a >>= f) = during stage a >>= fun x => during stage (f x) := by
  refine ExceptT.ext (funext fun h => ?_)
  show (during stage (a >>= f)).run h = (during stage a >>= fun x => during stage (f x)).run h
  rw [run_bind, during_run, during_run, run_bind]
  rcases a.run h with ⟨_ | _, _⟩ <;> rfl

theorem steps_eq_preparing (s : Settings) (entry : Path) : steps s entry = (do
    let (resolved, tools) ← preparing s entry
    let installer ← during .cacheReady (installBase (placeOf s tools))
    let script ← scripting (placeOf s tools) installer resolved
    style (placeOf s tools) script) := by
  have hplace : ∀ tools : Toolchain, during .cacheReady (pure (placeOf s tools)) = pure (placeOf s tools) :=
    fun _ => rfl
  have hworkplace : workplace s = Toolchain.discover s.node >>= fun tools => pure (placeOf s tools) := rfl
  simp only [steps_eq, preparing, hworkplace, during_bind, hplace, discovering_eq, bind_assoc, pure_bind]

theorem steps_of_prepared {s : Settings} {entry resolved : Path} {tools : Toolchain} {h h' : Host}
    (hready : (preparing s entry).run h = (.ok (resolved, tools), h'))
    (hthere : ∀ n ∈ basePackages s.styles, (Cache.ofSettings s).Has h'.tree h'.cwd n) :
    (steps s entry).run h = (discovering (placeOf s tools) {} resolved).run h' := by
  have hinstall : (during .cacheReady (installBase (placeOf s tools))).run h' = (.ok {}, h') := by
    rw [during_run, installBase_run (placeOf s tools) hthere]
    rfl
  rw [steps_eq_preparing, run_bind_of_ok hready, run_bind_of_ok hinstall, discovering_eq]

/-- What leads to a script where all packages are there that a bundle needs, with a style sheet or without. -/
def scripted (s : Settings) (entry : Path) : Staged (Toolchain × String) := do
  let (resolved, tools) ← preparing s entry
  let script ← scripting (placeOf s tools) {} resolved
  return (tools, script)

/-- It isn't read there whether a style sheet is wanted. -/
theorem scripted_styles (s : Settings) (entry : Path) :
    scripted { s with styles := true } entry = scripted { s with styles := false } entry := rfl

theorem wp_preparing {R : Host → Host → Prop} [Chained R] (hlook : ∀ {h h'}, h.Same h' → R h h') (s : Settings)
    (hensure : (Cache.ofSettings s).ensure.Stays R) (entry : Path) (h : Host) : wp (preparing s entry)
    (fun _ h' => R h h') (fun halt h' => R h h' ∧ halt.failure.Plain) h := by
  unfold preparing
  rw [wp_bind, wp_during]
  refine wp_mono _ (hensure h) (fun _ h₁ hh₁ => ?_) fun _ _ hf => hf
  have hlog : ∀ lines, R h { h₁ with log := lines } := fun lines =>
    Chained.trans hh₁ (hlook (.log h₁ lines))
  rw [wp_bind, wp_advance, wp_bind, wp_during]
  refine wp_mono _ (((looks_entryFile entry).mono hlook).since (hlog _)) (fun _ h₂ hh₂ => ?_) fun _ _ hf => hf
  rw [wp_bind, wp_during]
  exact wp_mono _ (((Toolchain.looks_discover s.node).mono hlook).since hh₂) (fun _ _ hh₃ => hh₃) fun _ _ hf => hf

/-- The last call before the script is there is the one that gives it. -/
theorem wp_scripting (w : Workplace) (i : Installer) (resolved : Path) (h : Host) : wp (scripting w i resolved)
    (fun script h' => ∃ made c, h'.calls = h.calls ++ made ++ [c] ∧ c.kind = .pass .finalize ∧
      Script.returned c = .ok script)
    (fun halt h' => (∃ l, halt.failure.Reportable l) ∧ ∃ made, h'.calls = h.calls ++ made) h := by
  unfold scripting
  rw [wp_bind, wp_advance, wp_bind, wp_during]
  refine wp_mono _ (wp_find w resolved _) ?_ ?_
  · rintro missing h₁ ⟨c, hc, -⟩
    have hc := hc.since (.log h _)
    rw [wp_bind, wp_advance, wp_bind, wp_during]
    refine wp_mono _ (wp_installMissing w i missing _) ?_ ?_
    · rintro _ h₂ ⟨⟨_, more, hmore, -⟩, -⟩
      have hmore := hc.calls ▸ (hmore.since (.log h₁ _)).calls
      rw [wp_bind, wp_advance, wp_bind, wp_during]
      refine wp_mono _ (wp_compile w _ resolved _) ?_ ?_
      · rintro script h₃ ⟨d, hd, hkind, -, hscript⟩
        have hd := hmore ▸ (hd.since (.log h₂ _)).calls
        rw [wp_bind, wp_advance, wp_pure]
        exact ⟨[c] ++ more, d, by simpa using hd, hkind, hscript⟩
      · rintro f h₃ ⟨hf, d, hd, -⟩
        have hd := hmore ▸ (hd.since (.log h₂ _)).calls
        exact ⟨⟨_, hf⟩, [c] ++ more ++ [d], by simpa using hd⟩
    · rintro f h₂ ⟨hf, _, more, hmore, -⟩
      have hmore := hc.calls ▸ (hmore.since (.log h₁ _)).calls
      exact ⟨⟨h₁.limits, hf.reportable⟩, [c] ++ more, by simpa using hmore⟩
  · rintro f h₁ ⟨hf, c, hc, -⟩
    exact ⟨⟨_, hf⟩, [c], (hc.since (.log h _)).calls⟩

theorem wp_scripted (s : Settings) (entry : Path) (h : Host) : wp (scripted s entry)
    (fun x h' => ∃ made c, h'.calls = h.calls ++ made ++ [c] ∧ c.kind = .pass .finalize ∧
      Script.returned c = .ok x.2)
    (fun halt h' => (∃ l, halt.failure.Reportable l) ∧ ∃ made, h'.calls = h.calls ++ made) h := by
  unfold scripted
  rw [wp_bind]
  refine wp_mono _ (wp_preparing Host.Same.alike s (Cache.ofSettings s).quiet_ensure entry h) ?_ ?_
  · rintro ⟨resolved, tools⟩ h₁ hh
    rw [wp_bind, ← hh.calls]
    exact wp_mono _ (wp_scripting (placeOf s tools) {} resolved h₁) (fun _ _ hscript => hscript) fun _ _ hf => hf
  · rintro halt h₁ ⟨hh, hf⟩
    exact ⟨⟨h.limits, hf.reportable⟩, [], by rw [hh.calls, List.append_nil]⟩

/-- Where all is there that a bundle needs, the steps lead to the script without it being read whether a style sheet
is wanted. -/
theorem steps_run {s : Settings} {h : Host}
    (hthere : ∀ n ∈ basePackages true, ((Cache.ofSettings s).isInstalled n).seenAt h.tree h.cwd = .ok true)
    (entry : Path) :
    (steps s entry).run h = (scripted s entry >>= fun x => style (placeOf s x.1) x.2).run h := by
  have hprepared := wp_iff.1 (wp_preparing Host.Same.grows s (Cache.ofSettings s).grows_ensure entry h)
  have hscripted : scripted s entry >>= (fun x => style (placeOf s x.1) x.2) = preparing s entry >>= fun p =>
      discovering (placeOf s p.2) {} p.1 := by
    simp only [scripted, discovering_eq, bind_assoc, pure_bind]
  rw [hscripted]
  rcases hr : (preparing s entry).run h with ⟨halt | ⟨resolved, tools⟩, h₁⟩
  · rw [steps_eq_preparing, run_bind_of_error hr, run_bind_of_error hr]
  · obtain ⟨hgrows, hsame⟩ := hprepared.1 _ _ hr
    rw [run_bind_of_ok hr]
    refine steps_of_prepared hr fun n hn => ?_
    rw [hsame]
    exact (Cache.ofSettings s).isInstalled_of_grows hgrows (hthere n (Installer.base_subset _ hn))

end Run

/-! ### The last step -/

namespace Styling

theorem applied_singleton (script : String) (d : Call) : applied script [d] =
    if (ofResult (d.answer .styles)).succeeded then ((ofResult (d.answer .styles)).apply script, true)
    else (script, false) := rfl

theorem applied_of_css {d : Call} {answer : Json} {css : String} (hanswer : d.answer .styles = .ok answer)
    (hcss : answer.field "css" = .str css) (script : String) :
    applied script [d] = (StyleOutcome.snippet css ++ script, true) := by
  have ho : ofResult (d.answer .styles) = { css := some css } := by
    rw [hanswer]
    show ofAnswer answer = _
    unfold ofAnswer
    rw [hcss]
  rw [applied_singleton, ho]
  rfl

theorem applied_of_none {d : Call}
    (hnone : ¬∃ answer css, d.answer .styles = .ok answer ∧ answer.field "css" = .str css) (script : String) :
    applied script [d] = (script, false) := by
  have ho : (ofResult (d.answer .styles)).succeeded = false := by
    cases hanswer : d.answer .styles with
    | error f => rfl
    | ok answer =>
      show (ofAnswer answer).succeeded = false
      unfold ofAnswer
      split
      · next hcss => exact absurd ⟨answer, _, hanswer, hcss⟩ hnone
      · rfl
  rw [applied_singleton, if_neg (by simp [ho])]

end Styling

namespace Run

/-- What the calls of two runs have to do with their results, where the first looks for a style sheet and the second
doesn't. -/
inductive Comparable (calls : List Call) : BuildResult → List Call → BuildResult → List Call → Prop where
  /-- Both fail alike, after the same calls. -/
  | failed (e : Envelope) (stage : Stage) (made : List Call) :
    Comparable calls (.failure e stage) (calls ++ made) (.failure e stage) (calls ++ made)
  /-- Both get to the same script. Then the first makes one more call, which says whether it has a style sheet. -/
  | finished (made : List Call) (c d : Call) (answer : Json) (script : String) (on : BuildResult)
    (hc : c.kind = .pass .finalize) (hanswer : c.answer .finalize = .ok answer)
    (hscript : answer.field "text" = .str script) (hd : d.kind = .pass .styles)
    (hstyled : ∀ answer css, d.answer .styles = .ok answer → answer.field "css" = .str css →
      on = .success (StyleOutcome.snippet css ++ script) true)
    (hunstyled : (¬∃ answer css, d.answer .styles = .ok answer ∧ answer.field "css" = .str css) →
      on = .success script false) :
    Comparable calls on (calls ++ made ++ [c] ++ [d]) (.success script false) (calls ++ made ++ [c])

theorem text_of_returned {c : Call} {script : String} (h : Script.returned c = .ok script) :
    ∃ answer, c.answer .finalize = .ok answer ∧ answer.field "text" = .str script := by
  obtain ⟨answer, hanswer, h⟩ := Except.exists_of_bind h
  refine ⟨answer, hanswer, ?_⟩
  unfold Script.scriptOf at h
  split at h
  · next s hs =>
    split at h
    · cases h
    · rw [hs, Except.ok.inj h]
  · cases h

section Scripted

variable {s : Settings} {h h₁ : Host}
  (hthere : ∀ n ∈ basePackages true, ((Cache.ofSettings s).isInstalled n).seenAt h.tree h.cwd = .ok true)
include hthere

theorem runJson_of_halt {entry : String} {halt : Halt}
    (hr : (scripted s (Path.ofString entry)).run h = (.error halt, h₁)) :
    (runJson s (.str entry)).run h = (halted halt).run h₁ := by
  have houtcome : outcome s (.str entry) h = (.error halt, h₁) := by
    show (steps s (Path.ofString entry)).run h = _
    rw [steps_run hthere, run_bind_of_error hr]
  rw [runJson_run, houtcome]

theorem runJson_of_script {entry script : String} {tools : Toolchain}
    (hr : (scripted s (Path.ofString entry)).run h = (.ok (tools, script), h₁)) : ∃ more h',
    (runJson s (.str entry)).run h =
      (.ok (.success (Styling.applied script more).1 (Styling.applied script more).2), h') ∧
    h'.calls = h₁.calls ++ more ∧ more.map Call.kind = (Call.Kind.pass .styles).when s.styles := by
  obtain ⟨x, h₂, hstyle, more, hadds, hkinds, rfl⟩ := exists_run_of_wp (wp_style (placeOf s tools) script h₁)
  have houtcome : outcome s (.str entry) h = (.ok (Styling.applied script more), h₂) := by
    show (steps s (Path.ofString entry)).run h = _
    rw [steps_run hthere, run_bind_of_ok hr, hstyle]
  rw [runJson_run, houtcome]
  exact ⟨more, _, rfl, hadds.calls, hkinds⟩

end Scripted

theorem runJson_of_not_path {entry : Json} (hentry : ∀ p, entry ≠ .str p) (s : Settings) :
    runJson s entry = halted ⟨.mismatch (.notPath entry.typeName), .init⟩ := by
  cases entry with
  | str p => exact absurd rfl (hentry p)
  | _ => rfl

/-- A halted run is comparable with itself. -/
theorem comparable_of_halted {calls made : List Call} {l : Limits} {halt : Halt} (hf : halt.failure.Reportable l)
    {h₁ : Host} (hmade : h₁.calls = calls ++ made) :
    ∃ r h', (halted halt).run h₁ = (.ok r, h') ∧ Comparable calls r h'.calls r h'.calls := by
  obtain ⟨r, h', hr, hh, e, rfl⟩ := exists_run_of_wp (wp_halted hf h₁)
  refine ⟨_, h', hr, ?_⟩
  rw [hh.calls, hmade]
  exact .failed e halt.stage made

section Stocked

/-- A host with all that a bundle needs, whose style pass gives something that isn't an answer. -/
def stocked : Host where
  tree.entries := [(["bin"], .dir (.change 0)), (["bin", "node"], .file "" true (.change 0)),
    (["bin", "npm"], .file "" true (.change 0)), (["a.tsx"], .file "" false (.change 0)),
    (["cache"], .dir (.change 0)), (["cache", "node_modules"], .dir (.change 0)),
    (["cache", "node_modules", "esbuild"], .dir (.change 0)), (["cache", "node_modules", "react"], .dir (.change 0)),
    (["cache", "node_modules", "react-dom"], .dir (.change 0)),
    (["cache", "node_modules", "@unocss"], .dir (.change 0)),
    (["cache", "node_modules", "@unocss", "core"], .dir (.change 0)),
    (["cache", "node_modules", "@unocss", "preset-uno"], .dir (.change 0)),
    (["cache", "node_modules", "@unocss", "reset"], .dir (.change 0))]
  env := [("PATH", "/bin")]
  outcomes.discover := [.ends 0 (some "\x7b\"ok\": true, \"specifiers\": []\x7d") "" [] .bySuccess]
  outcomes.finalize := [.ends 0 (some "\x7b\"ok\": true, \"text\": \"render()\"\x7d") "" [] .bySuccess]
  outcomes.styles := [.ends 0 (some "[") "" [] .bySuccess]

end Stocked

end Run

end Bundler
