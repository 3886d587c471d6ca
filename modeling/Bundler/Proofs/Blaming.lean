import Bundler.Proofs.Refusals

/-!
# The call that a run fails by

The package manager is called by no step but the installs, and an install whose call isn't a success fails by it. So
does each step that installs something, in whichever way its parts are put together (`Accounts`), and so does a run:
where a call of the package manager isn't a success, the failure of the run is the refusal of that call
(`Run.outcome_accounts`). If that call ran out of time or named the network, the run is reported as a failure of the
network, whatever else stands in its output or in the names, and only then (`Run.run_offline`).
-/

namespace Bundler

variable {α β ε : Type}

/-- The package manager isn't called. -/
abbrev Host.Spares : Host → Host → Prop :=
  Host.Gains fun c => c.kind ≠ .npm

/-- The failure is the refusal of the call, by an installer with the settings. -/
def Blames (s : Settings) (f : Failure) (c : Call) : Prop :=
  ∃ w : Workplace, w.settings = s ∧ f = Installer.refusal w c.batch c

/-- Where a call of the package manager isn't a success, the step fails by it. -/
abbrev Accounts (s : Settings) (failure : ε → Failure) (a : ExceptT ε (StateM Host) α) : Prop :=
  FailsBy (fun c => c.kind = .npm ∧ ¬c.Succeeds) (Blames s) failure a

theorem accounts_of_spares {s : Settings} {failure : ε → Failure} {a : ExceptT ε (StateM Host) α}
    (ha : Follows Host.Spares a) : Accounts s failure a :=
  .of_follows fun h => (ha h).mono fun _ hother hnpm => hother hnpm.1

/-! ### Installs -/

section Installs

variable (w : Workplace)

theorem accounts_install (specifiers : List String) (i : Installer) :
    Accounts w.settings id ((Installer.install w specifiers).toAction i) := by
  intro h
  have hwp : wp ((Installer.install w specifiers).toAction i)
      (fun _ h' => ∃ made, h'.calls = h.calls ++ made ∧ ∀ c ∈ made, c.Succeeds)
      (fun f h' => ∃ made, h'.calls = h.calls ++ made ∧ ∀ c ∈ made, Blames w.settings f c) h := by
    have hasked : ∀ {batch c} {s' : Installer × Host}, Installer.Asked w (i, h) batch c s' →
        s'.2.calls = h.calls ++ [c] := by
      intro batch c s' hs
      obtain ⟨h₁, hh, hc⟩ := hs.called
      rw [hc.calls, hh.calls]
    rw [wp_toAction]
    refine wp_mono _ (Installer.wp_install w specifiers (i, h)) ?_ ?_
    · rintro batch s' (⟨-, hidle, -⟩ | ⟨c, hs, -, -, hsucceeds⟩)
      · exact ⟨[], by rw [hidle.2.calls, List.append_nil], by simp⟩
      · exact ⟨[c], hasked hs, by simpa using hsucceeds⟩
    · rintro f s' ⟨-, hidle | ⟨batch, c, hs, -, -, hf⟩⟩
      · exact ⟨[], by rw [hidle.2.calls, List.append_nil], by simp⟩
      · have hbatch : c.batch = batch := hs.batchOf_eq
        exact ⟨[c], hasked hs, List.forall_mem_singleton.2 ⟨w, rfl, hbatch.symm ▸ hf⟩⟩
  unfold wp at hwp
  split at hwp
  · next hr =>
    obtain ⟨made, hcalls, hsucceed⟩ := hwp
    rw [hr]
    exact ⟨made, hcalls, fun c hc hnpm => absurd (hsucceed c hc) hnpm.2⟩
  · next f h' hr =>
    obtain ⟨made, hcalls, hblame⟩ := hwp
    rw [hr]
    exact ⟨made, hcalls, fun c hc _ => ⟨f, rfl, hblame c hc⟩⟩

namespace Run

theorem accounts_installBase : Accounts w.settings id (installBase w) := by
  rw [installBase_eq]
  refine .bind (accounts_of_spares (.of_looks (fun _ _ => Host.Same.gains) w.cache.looks_needsInstall)) fun first =>
    .bind (accounts_of_spares (.of_stays ((quiet_announceIf first _).mono Host.Alike.gains))) fun _ => ?_
  refine (accounts_install w _ {}).attempt fun h => ?_
  obtain ⟨events, stdout, hr⟩ := announceIf_run first "install-finished" h
  exact ⟨_, hr, rfl⟩

theorem accounts_installMissing (i : Installer) (missing : List String) :
    Accounts w.settings id (installMissing w i missing) :=
  (accounts_install w missing i).bind fun _ =>
    accounts_of_spares (follows_insist (fun _ _ => Host.Same.gains) w missing)

end Run

end Installs

/-! ### A whole run -/

namespace Run

section Steps

variable (w : Workplace)

theorem accounts_note (s : Settings) (level : Level) (text : String) : Accounts s Halt.failure (note level text) :=
  accounts_of_spares (follows_note (fun _ _ => Host.Same.gains) level text)

theorem accounts_discovering (i : Installer) (resolved : Path) :
    Accounts w.settings Halt.failure (discovering w i resolved) := by
  have hsame : ∀ h h' : Host, h.Same h' → h.Spares h' := fun _ _ => Host.Same.gains
  have hpass : ∀ p config, Follows Host.Spares (w.runPass p config) := fun _ _ => gains_runPass w nofun
  exact .bind (accounts_note _ _ _) fun _ =>
    .bind (accounts_of_spares (.during (follows_find hsame w hpass resolved) _)) fun missing =>
      .bind (accounts_note _ _ _) fun _ => .bind (.during (accounts_installMissing w i missing) _) fun _ =>
        accounts_of_spares (follows_compiling hsame w hpass resolved)

theorem accounts_steps (s : Settings) (entry : Path) : Accounts s Halt.failure (steps s entry) := by
  have hsame : ∀ h h' : Host, h.Same h' → h.Spares h' := fun _ _ => Host.Same.gains
  have hensure : Follows Host.Spares (Cache.ofSettings s).ensure :=
    .of_stays ((Cache.ofSettings s).quiet_ensure.mono Host.Alike.gains)
  rw [steps_eq]
  refine .bind (accounts_of_spares (.during hensure _)) fun _ => .bind (accounts_note _ _ _) fun _ =>
    .bind (accounts_of_spares (.during (.of_looks hsame (looks_entryFile entry)) _)) fun resolved =>
      .bind_yields (accounts_of_spares (.during (.of_looks hsame (looks_workplace s)) _))
        (P := fun w => w.settings = s) ?_ ?_
  · intro h
    rw [wp_during]
    exact wp_mono _ (wp_workplace s (.refl h)) (fun w _ hw => hw.2.2.1) fun _ _ _ => trivial
  · rintro w rfl
    exact .bind (.during (accounts_installBase w) _) fun installer => accounts_discovering w installer resolved

end Steps

/-- A run fails by the call of the package manager that isn't a success, if there is one. -/
theorem outcome_accounts (s : Settings) (entry : Json) (h : Host) : ∃ made,
    (outcome s entry h).2.calls = h.calls ++ made ∧ ∀ c ∈ made, c.kind = .npm → ¬c.Succeeds →
      ∃ halt, (outcome s entry h).1 = .error halt ∧ Blames s halt.failure c := by
  cases entry with
  | str entry =>
    obtain ⟨made, hcalls, hblames⟩ := accounts_steps s (Path.ofString entry) h
    exact ⟨made, hcalls, fun c hc hkind hfails => hblames c hc ⟨hkind, hfails⟩⟩
  | _ => exact ⟨[], (List.append_nil _).symm, by simp⟩

end Run

/-! ### Calls that don't reach the network -/

/-- The call ran out of time, with a time to it that can be told, or ended without success and named the network. -/
def Call.Offline (s : Settings) (c : Call) : Prop :=
  (c.moment.outcome = .stops .timeout ∧ ∃ x, Settings.seconds s.installTimeout = .ok x) ∨
  ∃ e, c.result.1 = .ok e ∧ e.succeeded = false ∧
    (Text.containsAny e.stdout Marker.network = true ∨ Text.containsAny e.stderr Marker.network = true)

theorem Execution.mentions_iff {e : Execution} {markers : List String} : e.mentions markers = true ↔
    Text.containsAny e.stdout markers = true ∨ Text.containsAny e.stderr markers = true := by
  unfold mentions
  rw [Bool.or_eq_true]

theorem Call.result_of_timeout {c : Call} (h : c.moment.outcome = .stops .timeout) :
    c.result.1 = .error (c.failure .timeout) := by
  unfold result
  rw [h]

theorem Call.Offline.not_succeeds {s : Settings} {c : Call} (h : c.Offline s) : ¬c.Succeeds := by
  rcases h with ⟨htimeout, -⟩ | ⟨e, he, hfailed, -⟩
  · exact Call.not_succeeds_of_error (Call.result_of_timeout htimeout)
  · simp [Call.succeeds_iff_of_ok he, hfailed]

/-- A failure of the network, for the names that were asked for. -/
def Failure.IsOffline (f : Failure) (names : List String) : Prop :=
  ∃ b, f = .bundle b ∧ b.kind = .network ∧ b.attached = none ∧ b.packages = names

theorem Failure.IsOffline.type {f : Failure} {names : List String} (h : f.IsOffline names) {b : Json.Bounds}
    {rules : List Rule} {e : Envelope} (he : Envelope.ofFailure b rules f = .ok e) : e.type = .network := by
  obtain ⟨b, rfl, hkind, hattached, -⟩ := h
  have htype : (Failure.bundle b).explicitType = some (.str ErrorType.network.name) := by
    show b.explicitType = _
    unfold BundleFault.explicitType
    rw [hattached, if_pos hkind]
    rfl
  have hnetwork : ErrorType.ofJson? (.str ErrorType.network.name) = some .network := ErrorType.ofName?_name .network
  unfold Envelope.ofFailure Envelope.ofJson at he
  rw [htype] at he
  dsimp only at he
  rw [hnetwork] at he
  cases he
  rfl

theorem Installer.refusal_of_offline {w : Workplace} {c : Call} {batch : List String} (h : c.Offline w.settings) :
    (refusal w batch c).IsOffline batch := by
  rcases h with ⟨htimeout, x, hx⟩ | ⟨e, he, -, hmentions⟩
  · have hseconds : secondsText w.settings.installTimeout = .ok (Layout.brief.write x) := by
      unfold secondsText
      rw [hx]
      rfl
    unfold refusal
    rw [Call.result_of_timeout htimeout]
    unfold Call.failure callFailure
    dsimp only
    rw [hseconds]
    exact ⟨_, rfl, rfl, rfl, rfl⟩
  · unfold refusal
    rw [he]
    dsimp only
    rw [exitFailure_eq, if_pos (Execution.mentions_iff.2 hmentions)]
    exact ⟨_, rfl, rfl, rfl, rfl⟩

theorem Installer.mentions_of_refusal {w : Workplace} {c : Call} {batch : List String} {e : Execution} {b : BundleFault}
    (he : c.result.1 = .ok e) (hb : .bundle b = refusal w batch c) (hkind : b.kind = .network) :
    Text.containsAny e.stdout Marker.network = true ∨ Text.containsAny e.stderr Marker.network = true := by
  unfold refusal at hb
  rw [he] at hb
  dsimp only at hb
  rw [exitFailure_eq] at hb
  split at hb
  · next hmentions => exact Execution.mentions_iff.1 hmentions
  · cases hb
    nomatch hkind

namespace Run

theorem argv_of_makes {s : Settings} {h : Host} {c : Call} (hc : Makes s h c) (hkind : c.kind = .npm) : ∃ npm,
    c.argv = npm :: (["install", "--prefix", (Cache.ofSettings s).root.text] ++ Installer.flags ++ c.batch) := by
  obtain ⟨w, ⟨h₁, h₂, hh, hw⟩, hmakes⟩ := hc
  have hcache : w.cache = Cache.ofSettings s := ((wp_iff.1 (wp_workplace s hh)).1 w h₂ hw).2.1
  cases hmakes with
  | npm batch m => exact ⟨_, by rw [← hcache]; rfl⟩
  | pass p hfields m => nomatch hkind

theorem report_of_outcome {s : Settings} {entry : Json} {h h' : Host} {r : BuildResult} {halt : Halt}
    (ho : (outcome s entry h).1 = .error halt) (hr : (runJson s entry).run h = (.ok r, h')) :
    ∃ e, (∀ b, Envelope.ofFailure b Rule.table halt.failure = .ok e) ∧ r = .failure e halt.stage := by
  have ho : outcome s entry h = (.error halt, (outcome s entry h).2) := Prod.ext ho rfl
  obtain ⟨r', h'', e, first, hr', hreports⟩ := halted_reports (reportable_of_outcome ho) (outcome s entry h).2
  rw [runJson_run, ho] at hr
  change (halted halt).run (outcome s entry h).2 = _ at hr
  rw [hr'] at hr
  cases hr
  exact ⟨e, hreports.classified, hreports.result⟩

/-- Each call of the package manager that runs out of time, or ends without success and names the network in one of its
streams, is the last one of its run. The run halts by it, at the stage of the install, for the names that it was given,
and is reported as a failure of the network. No other call that ends without success is a failure of the network. -/
theorem run_offline (s : Settings) (entry : Json) (h : Host) : ∃ r h' made,
    (runJson s entry).run h = (.ok r, h') ∧ h'.calls = h.calls ++ made ∧
    ∀ before c after, made = before ++ c :: after → c.kind = .npm →
      (∃ npm, c.argv = npm :: (["install", "--prefix", (Cache.ofSettings s).root.text] ++ Installer.flags ++ c.batch)) ∧
      (c.Offline s → after = [] ∧ ∃ f stage e, (outcome s entry h).1 = .error ⟨f, stage⟩ ∧ f.IsOffline c.batch ∧
        r = .failure e stage ∧ e.type = .network ∧
        ((before = [] ∧ stage = .cacheReady) ∨
          (∃ d ∈ before, d.kind = .pass .discover) ∧ stage = .discovered)) ∧
      ∀ e f stage, c.result.1 = .ok e → e.succeeded = false → (outcome s entry h).1 = .error ⟨f, stage⟩ →
        (∃ b, f = .bundle b ∧ b.kind = .network) →
        Text.containsAny e.stdout Marker.network = true ∨ Text.containsAny e.stderr Marker.network = true := by
  obtain ⟨r, h', made, hr, hcalls, houtcome, htraced⟩ := run_made s entry h
  obtain ⟨made', hcalls', hblames⟩ := outcome_accounts s entry h
  obtain rfl : made = made' := List.append_cancel_left (houtcome.symm.trans hcalls')
  refine ⟨r, h', made, hr, hcalls, ?_⟩
  rintro before c after rfl hkind
  have hc : c ∈ before ++ c :: after := by simp
  refine ⟨argv_of_makes (htraced.makes c hc) hkind, fun hoffline => ?_, fun e f stage he hfailed ho hnetwork => ?_⟩
  · have hfails := hoffline.not_succeeds
    obtain rfl : after = [] := htraced.last before c after rfl (by unfold Call.Fails; rw [hkind]; exact hfails)
    obtain ⟨⟨f, stage⟩, ho, w, rfl, rfl⟩ := hblames c hc hkind hfails
    obtain ⟨e, he, rfl⟩ := report_of_outcome ho hr
    have hrefusal : (Installer.refusal w c.batch c).IsOffline c.batch := Installer.refusal_of_offline hoffline
    exact ⟨rfl, _, stage, e, ho, hrefusal, rfl, hrefusal.type (he h.limits.toReport), htraced.stage_of_npm hkind⟩
  · have hfails : ¬c.Succeeds := by simp [Call.succeeds_iff_of_ok he, hfailed]
    obtain ⟨halt, ho', w, -, hf⟩ := hblames c hc hkind hfails
    obtain rfl : ⟨f, stage⟩ = halt := Except.error.inj (ho.symm.trans ho')
    obtain ⟨b, rfl, hb⟩ := hnetwork
    exact Installer.mentions_of_refusal he hf hb

section Called

/-- A host without packages, whose package manager runs out of time. -/
def stalled : Host :=
  { unsupplied with outcomes.npm := [.stops .timeout] }

/-- Settings with a time for installs that is too long to be told. -/
def patient : Settings where
  cacheDir := Path.ofString "/cache"
  styles := false
  installTimeout := .number (.int (Int.ofNat (Nat.pow 10 400)))

/-- The type and the stage of what is reported. -/
def verdict (x : Except Failure BuildResult × Host) : Option (ErrorType × Stage) :=
  match x.1 with
  | .ok (.failure e stage) => some (e.type, stage)
  | _ => none

/-- The call ran out of time. -/
def ranOut (c : Call) : Bool :=
  match c.moment.outcome with
  | .stops .timeout => true
  | _ => false

/-- That the package manager ran out of time goes unsaid where the time can't be told. -/
theorem timeout_untold : verdict ((runJson patient (.str "a.tsx")).run stalled) = some (.unknown, .cacheReady) ∧
    ((runJson patient (.str "a.tsx")).run stalled).2.calls.map (fun c => (c.kind, ranOut c)) = [(.npm, true)] := by
  decide +kernel

end Called

end Run

end Bundler
