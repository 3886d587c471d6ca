import Bundler.Proofs.Arguments

/-!
# What the package manager is believed

The package manager is called in two places, and may end with success without having installed what it was asked for.
After the second call all that the component lacks is looked for once more, and if something isn't there the run halts.
After the first call nothing is looked for: the first pass is called whatever was left out. So what is known when it is
called of a package that every bundle needs is that it was there when it was looked for, or that the package manager
was asked for it and ended with success (`Run.run_delivers`).
-/

namespace Bundler

namespace Call

/-- The names that a call of the package manager is given: what stands behind the directory and the flags. -/
def batch (c : Call) : List String :=
  c.argv.drop 7

/-- All is there afterwards that the call was given. -/
def Delivers (cache : Cache) (c : Call) : Prop :=
  ∀ n ∈ c.batch, cache.Has c.result.2 c.moment.cwd n

end Call

namespace Action

theorem announce_run (event : String) (h : Host) :
    ∃ events stdout, (announce event).run h = (.ok (), { h with events, stdout }) := by
  unfold announce
  rw [run_get_bind]
  split
  · exact ⟨h.events, h.stdout, rfl⟩
  · exact ⟨_, h.stdout, rfl⟩
  · exact ⟨h.events, _, rfl⟩

end Action

namespace Run

theorem announceIf_run (first : Bool) (event : String) (h : Host) :
    ∃ events stdout, (announceIf first event).run h = (.ok (), { h with events, stdout }) := by
  cases first with
  | true => exact Action.announce_run event h
  | false => exact ⟨h.events, h.stdout, rfl⟩

theorem wp_announceIf {first : Bool} {event : String} {h : Host} {Q : Unit → Host → Prop} {E : Failure → Host → Prop}
    (hQ : ∀ events stdout, Q () { h with events, stdout }) : wp (announceIf first event) Q E h := by
  obtain ⟨events, stdout, hr⟩ := announceIf_run first event h
  unfold wp
  rw [hr]
  exact hQ events stdout

/-! ### What an install of a run has got -/

/-- One call of the package manager at most. -/
def Lacking (made : List Call) : Prop :=
  made.length ≤ 1 ∧ ∀ c ∈ made, c.kind = .npm

/-- An install that went well: it found all that it looked for, or made one call for what it didn't find. -/
inductive Fetched (cache : Cache) (specifiers : List String) (i : Installer) (cwd : Location) (first : Tree) :
    List Call → Tree → Prop where
  | found {t : Tree} (hsought : Installer.Sought cache specifiers i cwd first t []) :
    Fetched cache specifiers i cwd first [] t
  | called {c : Call} (hkind : c.kind = .npm) (hsucceeds : c.Succeeds) (hcwd : c.moment.cwd = cwd)
    (hnamed : Installer.Named specifiers c.batch)
    (hsought : Installer.Sought cache specifiers i cwd first c.moment.tree c.batch) :
    Fetched cache specifiers i cwd first [c] c.result.2

section Fetched

variable {cache : Cache} {specifiers : List String} {i : Installer} {cwd : Location} {first t : Tree} {made : List Call}

theorem Fetched.lacking (h : Fetched cache specifiers i cwd first made t) : Lacking made := by
  cases h with
  | found => simp [Lacking]
  | called hkind => simp [Lacking, hkind]

theorem Fetched.delivers (h : Fetched cache specifiers i cwd first made t)
    (hnames : ∀ a ∈ specifiers, ∃ x, Package.nameOf x = .ok a) (hthere : ∀ a ∈ specifiers, cache.Has t cwd a) :
    ∀ c ∈ made, c.Delivers cache := by
  cases h with
  | found => simp
  | @called c _ _ hcwd hnamed _ =>
    intro d hd n hn
    obtain rfl := List.mem_singleton.1 hd
    obtain ⟨a, ha, m, ham, hmn⟩ := hnamed n hn
    obtain ⟨x, hx⟩ := hnames a ha
    have hself : Package.nameOf m = .ok m := Package.nameOf_of_nameOf hx ham
    obtain rfl : m = n := Except.ok.inj (hself.symm.trans hmn)
    have ha := hthere a ha
    unfold Cache.Has at ha ⊢
    rw [hcwd, cache.isInstalled_congr (hself.trans ham.symm)]
    exact ha

end Fetched

/-- An install that went wrong. -/
def Refused (made : List Call) : Prop :=
  Lacking made ∧ ∀ c ∈ made, ¬c.Succeeds

variable (w : Workplace)

theorem wp_fetch (specifiers : List String) (i : Installer) (h : Host) :
    wp ((Installer.install w specifiers).toAction i)
      (fun _ h' => h'.cwd = h.cwd ∧ ∃ made, h'.calls = h.calls ++ made ∧
        Fetched w.cache specifiers i h.cwd h.tree made h'.tree)
      (fun _ h' => ∃ made, h'.calls = h.calls ++ made ∧ Refused made) h := by
  have hcalls : ∀ {batch c} {s' : Installer × Host}, Installer.Asked w (i, h) batch c s' →
      s'.2.calls = h.calls ++ [c] ∧ c.kind = .npm := by
    intro batch c s' hasked
    obtain ⟨h₁, hh, hc⟩ := hasked.called
    exact ⟨by rw [hc.calls, hh.calls], hc.kind⟩
  rw [wp_toAction]
  refine wp_mono _ (Installer.wp_install w specifiers (i, h)) ?_ ?_
  · rintro batch s' (⟨rfl, hidle, hsought⟩ | ⟨c, hasked, hsought, hnamed, hsucceeds⟩)
    · exact ⟨hidle.2.cwd, [], by rw [hidle.2.calls, List.append_nil], .found hsought⟩
    · obtain ⟨hmade, hkind⟩ := hcalls hasked
      have hbatch : c.batch = batch := hasked.batchOf_eq
      obtain ⟨h₁, hh, hc⟩ := hasked.called
      rw [← hbatch] at hsought hnamed
      refine ⟨hc.cwd.trans hh.cwd, [c], hmade, ?_⟩
      rw [hc.tree]
      exact .called hkind hsucceeds (hc.momentCwd.trans hh.cwd) hnamed hsought
  · rintro f s' ⟨-, hidle | ⟨batch, c, hasked, -, hfails, -⟩⟩
    · exact ⟨[], by rw [hidle.2.calls, List.append_nil], by simp [Refused, Lacking]⟩
    · obtain ⟨hmade, hkind⟩ := hcalls hasked
      exact ⟨[c], hmade, by simp [Refused, Lacking, hkind, hfails]⟩

theorem wp_fetchBase (h : Host) : wp (installBase w)
    (fun _ h' => h'.cwd = h.cwd ∧ ∃ made, h'.calls = h.calls ++ made ∧
      Fetched w.cache (basePackages w.settings.styles) {} h.cwd h.tree made h'.tree)
    (fun _ h' => ∃ made, h'.calls = h.calls ++ made ∧ Refused made) h := by
  have hnone : Refused [] := by simp [Refused, Lacking]
  rw [installBase_eq, wp_bind]
  refine wp_mono _ (w.cache.looks_needsInstall h) ?_ ?_
  · rintro first h₁ hsame
    obtain ⟨lines, rfl⟩ := hsame
    rw [wp_bind]
    refine wp_announceIf fun events stdout => ?_
    rw [wp_bind, wp_attempt]
    refine wp_mono _ (wp_fetch w _ {} _) ?_ ?_
    · rintro r h₂ ⟨hcwd, made, hcalls, hfetched⟩
      rw [wp_bind]
      refine wp_announceIf fun events stdout => ?_
      exact ⟨hcwd, made, hcalls, hfetched⟩
    · rintro f h₂ ⟨made, hcalls, hrefused⟩
      rw [wp_bind]
      refine wp_announceIf fun events stdout => ?_
      exact ⟨made, hcalls, hrefused⟩
  · rintro f h₁ ⟨hsame, -⟩
    exact ⟨[], by rw [hsame.alike.calls, List.append_nil], hnone⟩

theorem wp_fetchMissing (i : Installer) {missing : List String}
    (hnames : ∀ n ∈ missing, ∃ x, Package.nameOf x = .ok n) (h : Host) : wp (installMissing w i missing)
    (fun _ h' => ∃ made, h'.calls = h.calls ++ made ∧ Lacking made ∧ ∀ c ∈ made, c.Delivers w.cache)
    (fun _ h' => ∃ made, h'.calls = h.calls ++ made ∧ Lacking made) h := by
  unfold installMissing
  rw [wp_bind]
  refine wp_mono _ (wp_fetch w missing i h) ?_ ?_
  · rintro _ h₁ ⟨hcwd, made, hcalls, hfetched⟩
    have hlacking := hfetched.lacking
    rw [wp_bind]
    refine wp_mono _ (wp_absentOf w.cache missing h₁) ?_ ?_
    · rintro absent _ ⟨rfl, hdropped⟩
      split
      · exact ⟨made, hcalls, hlacking⟩
      · next hempty =>
        have hnil : absent = [] := by simpa using hempty
        refine ⟨made, hcalls, hlacking, hfetched.delivers hnames fun a ha => ?_⟩
        rcases hdropped a ha with ha | ha
        · simp [hnil] at ha
        · rwa [hcwd] at ha
    · rintro f _ ⟨rfl, -⟩
      exact ⟨made, hcalls, hlacking⟩
  · rintro f h₁ ⟨made, hcalls, hrefused⟩
    exact ⟨made, hcalls, hrefused.1⟩

/-! ### A whole run -/

/-- The passes that come after the first one. -/
def Compiling (rest : List Call) : Prop :=
  ∀ c ∈ rest, c.kind = .pass .finalize ∨ c.kind = .pass .styles

/-- The calls after the first pass: those of the second install and, if all is there then that it asked for, of the
other passes. -/
structure Completed (cache : Cache) (lacking rest : List Call) : Prop where
  once : Lacking lacking
  delivers : rest = [] ∨ ∀ c ∈ lacking, c.Delivers cache
  passes : Compiling rest

/-- The calls of a run: those of the first install and, if it went well, the first pass and those after it. -/
inductive Delivered (cache : Cache) (styles : Bool) (cwd : Location) (first : Tree) : List Call → Prop where
  | early {base : List Call} (hbase : Refused base) : Delivered cache styles cwd first base
  | found {base lacking rest : List Call} {d : Call}
    (hbase : Fetched cache (basePackages styles) {} cwd first base d.moment.tree) (hd : d.kind = .pass .discover)
    (hcwd : d.moment.cwd = cwd) (hcompleted : Completed cache lacking rest) :
    Delivered cache styles cwd first (base ++ d :: (lacking ++ rest))

theorem wp_compiling_calls (resolved : Path) (h : Host) : wp (compiling w resolved)
    (fun _ h' => ∃ f more, h'.calls = h.calls ++ f :: more ∧ f.kind = .pass .finalize ∧
      ∀ c ∈ more, c.kind = .pass .styles)
    (fun _ h' => ∃ f, h'.calls = h.calls ++ [f] ∧ f.kind = .pass .finalize ∧ f.Fails w.cache) h := by
  unfold compiling
  rw [wp_bind, wp_advance, wp_bind, wp_during]
  refine wp_mono _ (wp_compile w _ resolved _) ?_ ?_
  · rintro script h₁ ⟨f, hadds, hf, -⟩
    rw [wp_bind, wp_advance]
    refine wp_mono _ (wp_style w script _) ?_ fun _ _ hno => hno.elim
    rintro _ h₂ ⟨more, hmore, hkinds, -⟩
    exact ⟨f, more, by rw [hmore.calls, hadds.calls]; simp, hf, kind_of_when hkinds⟩
  · rintro failure h₁ ⟨-, f, hadds, hf, -, hfails⟩
    exact ⟨f, hadds.calls, hf, hfails⟩

theorem wp_completing_rest (i : Installer) (resolved : Path) {missing : List String}
    (hnames : ∀ n ∈ missing, ∃ x, Package.nameOf x = .ok n) (h : Host) : wp (completing w i resolved missing)
    (fun _ h' => ∃ lacking rest, h'.calls = h.calls ++ (lacking ++ rest) ∧ Completed w.cache lacking rest)
    (fun _ h' => ∃ lacking rest, h'.calls = h.calls ++ (lacking ++ rest) ∧ Completed w.cache lacking rest) h := by
  unfold completing
  rw [wp_bind, wp_advance, wp_bind, wp_during]
  refine wp_mono _ (wp_fetchMissing w i hnames _) ?_ ?_
  · rintro _ h₁ ⟨lacking, hmade, hlacking, hdelivers⟩
    have hall : ∀ {h₂ : Host}, (∃ rest, h₂.calls = h₁.calls ++ rest ∧ Compiling rest) →
        ∃ lacking rest, h₂.calls = h.calls ++ (lacking ++ rest) ∧ Completed w.cache lacking rest := by
      rintro h₂ ⟨rest, hmore, hrest⟩
      exact ⟨lacking, rest, by rw [hmore, hmade, List.append_assoc], hlacking, .inr hdelivers, hrest⟩
    refine wp_mono _ (wp_compiling_calls w resolved h₁) ?_ ?_
    · rintro _ h₂ ⟨f, more, hmore, hf, hstyles⟩
      exact hall ⟨f :: more, hmore, List.forall_mem_cons.2 ⟨.inl hf, fun c hc => .inr (hstyles c hc)⟩⟩
    · rintro _ h₂ ⟨f, hmore, hf, -⟩
      exact hall ⟨[f], hmore, List.forall_mem_singleton.2 (.inl hf)⟩
  · rintro f h₁ ⟨lacking, hmade, hlacking⟩
    exact ⟨lacking, [], by rw [hmade, List.append_nil], hlacking, .inl rfl, by simp [Compiling]⟩

theorem wp_discovering_rest (i : Installer) (resolved : Path) (h : Host) : wp (discovering w i resolved)
    (fun _ h' => ∃ d lacking rest, h'.calls = h.calls ++ d :: (lacking ++ rest) ∧ d.kind = .pass .discover ∧
      d.moment.tree = h.tree ∧ d.moment.cwd = h.cwd ∧ Completed w.cache lacking rest)
    (fun _ h' => ∃ d lacking rest, h'.calls = h.calls ++ d :: (lacking ++ rest) ∧ d.kind = .pass .discover ∧
      d.moment.tree = h.tree ∧ d.moment.cwd = h.cwd ∧ Completed w.cache lacking rest) h := by
  unfold discovering
  rw [wp_bind, wp_advance, wp_bind, wp_during]
  refine wp_mono _ (wp_find w resolved _) ?_ ?_
  · rintro missing h₁ ⟨d, hadds, hd, ⟨htree, -⟩, hmissing⟩
    obtain ⟨specifiers, -, hgiven⟩ := Missing.exists_of_mem_returned hmissing
    have hall : ∀ {h₂ : Host},
        (∃ lacking rest, h₂.calls = h₁.calls ++ (lacking ++ rest) ∧ Completed w.cache lacking rest) →
        ∃ d lacking rest, h₂.calls = h.calls ++ d :: (lacking ++ rest) ∧ d.kind = .pass .discover ∧
          d.moment.tree = h.tree ∧ d.moment.cwd = h.cwd ∧ Completed w.cache lacking rest := by
      rintro h₂ ⟨lacking, rest, hmade, hcompleted⟩
      refine ⟨d, lacking, rest, ?_, hd, htree, hadds.places d (List.mem_singleton_self d), hcompleted⟩
      rw [hmade, hadds.calls, List.append_assoc]
      rfl
    exact wp_mono _ (wp_completing_rest w i resolved (fun n hn => (hgiven n hn).imp fun x hx => hx.2) h₁)
      (fun _ _ => hall) fun _ _ => hall
  · rintro f h₁ ⟨-, d, hadds, hd, htree, -⟩
    exact ⟨d, [], [], hadds.calls, hd, htree, hadds.places d (List.mem_singleton_self d), by simp [Lacking],
      .inl rfl, by simp [Compiling]⟩

/-- The tree once the cache was made ready, whatever came of it. -/
def ensured (s : Settings) (h : Host) : Tree :=
  ((Cache.ofSettings s).ensure.run h).2.tree

theorem wp_steps_delivered (s : Settings) (entry : Path) (h : Host) : wp (steps s entry)
    (fun _ h' => ∃ made, h'.calls = h.calls ++ made ∧
      Delivered (Cache.ofSettings s) s.styles h.cwd (ensured s h) made)
    (fun _ h' => ∃ made, h'.calls = h.calls ++ made ∧
      Delivered (Cache.ofSettings s) s.styles h.cwd (ensured s h) made) h := by
  have hnothing : ∀ {h₁ : Host}, h.Alike h₁ → ∃ made, h₁.calls = h.calls ++ made ∧
      Delivered (Cache.ofSettings s) s.styles h.cwd (ensured s h) made := fun hh =>
    ⟨[], by rw [hh.calls, List.append_nil], .early (by simp [Refused, Lacking])⟩
  refine wp_steps_of_workplace (fun _ _ hh => hnothing hh) fun resolved {w h₁ h₂} hensured hh₁ hrun => ?_
  obtain ⟨hsame, hcache, hsettings, -⟩ := (wp_iff.1 (wp_workplace s hh₁)).1 w h₂ hrun
  have hh₂ := hh₁.trans hsame.alike
  have htree : h₂.tree = ensured s h := hsame.tree.trans hensured.tree
  rw [← hcache]
  rw [wp_bind, wp_during]
  refine wp_mono _ (wp_fetchBase w h₂) ?_ ?_
  · rintro installer h₃ ⟨hcwd, base, hbase, hfetched⟩
    rw [hh₂.cwd, htree, hsettings] at hfetched
    have hall : ∀ {h₄ : Host}, (∃ d lacking rest, h₄.calls = h₃.calls ++ d :: (lacking ++ rest) ∧
        d.kind = .pass .discover ∧ d.moment.tree = h₃.tree ∧ d.moment.cwd = h₃.cwd ∧
        Completed w.cache lacking rest) →
        ∃ made, h₄.calls = h.calls ++ made ∧ Delivered w.cache s.styles h.cwd (ensured s h) made := by
      rintro h₄ ⟨d, lacking, rest, hmade, hd, htree', hplace, hcompleted⟩
      rw [← htree'] at hfetched
      refine ⟨_, ?_, .found hfetched hd (hplace.trans (hcwd.trans hh₂.cwd)) hcompleted⟩
      rw [hmade, hbase, hh₂.calls, List.append_assoc]
    exact wp_mono _ (wp_discovering_rest w installer resolved h₃) (fun _ _ => hall) fun _ _ => hall
  · rintro f h₃ ⟨base, hbase, hrefused⟩
    exact ⟨base, by rw [hbase, hh₂.calls], .early hrefused⟩

/-- The calls of a run are those of its steps. -/
theorem run_made (s : Settings) (entry : Json) (h : Host) : ∃ r h' made,
    (runJson s entry).run h = (.ok r, h') ∧ h'.calls = h.calls ++ made ∧
    (outcome s entry h).2.calls = h.calls ++ made ∧ Traced s h r made := by
  obtain ⟨r, h', hr, made, hcalls, htraced⟩ := exists_run_of_wp (wp_runJson s entry h)
  obtain ⟨r', h'', hr', hsame⟩ := runJson_same s entry h
  rw [hr] at hr'
  cases hr'
  exact ⟨r, h', made, hr, hcalls, hsame.alike.calls.symm.trans hcalls, htraced⟩

theorem run_delivered (s : Settings) (entry : Json) (h : Host) : ∃ r h' made,
    (runJson s entry).run h = (.ok r, h') ∧ h'.calls = h.calls ++ made ∧ Traced s h r made ∧
    Delivered (Cache.ofSettings s) s.styles h.cwd (ensured s h) made := by
  obtain ⟨r, h', made, hr, hcalls, houtcome, htraced⟩ := run_made s entry h
  have hdelivered : ∃ made, (outcome s entry h).2.calls = h.calls ++ made ∧
      Delivered (Cache.ofSettings s) s.styles h.cwd (ensured s h) made := by
    cases entry with
    | str entry =>
      have hwp := wp_iff.1 (wp_steps_delivered s (Path.ofString entry) h)
      rcases ho : outcome s (.str entry) h with ⟨halt | x, h₁⟩
      · exact hwp.2 halt h₁ ho
      · exact hwp.1 x h₁ ho
    | _ => exact ⟨[], (List.append_nil _).symm, .early (by simp [Refused, Lacking])⟩
  obtain ⟨made', hcalls', hdelivered⟩ := hdelivered
  have hmade : made = made' := List.append_cancel_left (houtcome.symm.trans hcalls')
  exact ⟨r, h', made, hr, hcalls, htraced, hmade ▸ hdelivered⟩

/-! ### What is believed -/

theorem nameOf_base (styles : Bool) : ∀ n ∈ basePackages styles, Package.nameOf n = .ok n := by
  cases styles with
  | false =>
    simp only [basePackages, Bool.false_eq_true, if_false, List.append_nil, List.forall_mem_cons]
    exact ⟨rfl, rfl, rfl, by simp⟩
  | true =>
    simp only [basePackages, if_true, List.cons_append, List.nil_append, List.forall_mem_cons]
    exact ⟨rfl, rfl, rfl, rfl, rfl, rfl, by simp⟩

theorem append_cons_cases {α : Type} {c d : α} {xs ys before after : List α}
    (h : xs ++ d :: ys = before ++ c :: after) : (∃ zs, xs = before ++ c :: zs ∧ after = zs ++ d :: ys) ∨
      (before = xs ∧ c = d ∧ after = ys) ∨ ∃ zs, before = xs ++ d :: zs ∧ ys = zs ++ c :: after := by
  rcases List.append_eq_append_iff.1 h with ⟨zs, rfl, hzs⟩ | ⟨zs, rfl, hzs⟩
  · cases zs with
    | nil =>
      cases hzs
      exact .inr (.inl ⟨List.append_nil _, rfl, rfl⟩)
    | cons z zs =>
      cases hzs
      exact .inr (.inr ⟨zs, rfl, rfl⟩)
  · cases zs with
    | nil =>
      cases hzs
      exact .inr (.inl ⟨(List.append_nil _).symm, rfl, rfl⟩)
    | cons z zs =>
      cases hzs
      exact .inl ⟨zs, rfl, rfl⟩

theorem Lacking.eq_singleton {made before after : List Call} {c : Call} (h : Lacking made)
    (hmade : made = before ++ c :: after) : before = [] ∧ after = [] := by
  subst hmade
  have hlength := h.1
  simp only [List.length_append, List.length_cons] at hlength
  exact ⟨List.length_eq_zero_iff.1 (by omega), List.length_eq_zero_iff.1 (by omega)⟩

/-- What the package manager is believed when the first pass is called. -/
def Believed (cache : Cache) (first : Tree) (before : List Call) (d : Call) (n : String) : Prop :=
  cache.Has first d.moment.cwd n ∨ cache.Has d.moment.tree d.moment.cwd n ∨
    ∃ c ∈ before, c.kind = .npm ∧ c.Succeeds ∧ (n ∈ c.batch ∨ cache.Has c.moment.tree c.moment.cwd n)

theorem Fetched.believed {cache : Cache} {styles : Bool} {cwd : Location} {first : Tree} {base : List Call} {d : Call}
    (h : Fetched cache (basePackages styles) {} cwd first base d.moment.tree) (hcwd : d.moment.cwd = cwd) :
    ∀ n ∈ basePackages styles, Believed cache first base d n := by
  intro n hn
  have hself := nameOf_base styles n hn
  generalize ht : d.moment.tree = t at h
  unfold Believed
  rw [hcwd, ht]
  cases h with
  | found hsought =>
    rcases hsought n hn hself with hbatch | hrequested | hfirst | hsecond
    · simp at hbatch
    · simp at hrequested
    · exact .inl hfirst
    · exact .inr (.inl hsecond)
  | @called c hkind hsucceeds hplace _ hsought =>
    rcases hsought n hn hself with hbatch | hrequested | hfirst | hsecond
    · exact .inr (.inr ⟨c, List.mem_singleton_self c, hkind, hsucceeds, .inl hbatch⟩)
    · simp at hrequested
    · exact .inl hfirst
    · exact .inr (.inr ⟨c, List.mem_singleton_self c, hkind, hsucceeds, .inr (hplace ▸ hsecond)⟩)

section Completed

variable {cache : Cache} {lacking rest before after : List Call} {c : Call} (h : Completed cache lacking rest)
include h

theorem Completed.kind_ne (hc : c ∈ lacking ++ rest) : c.kind ≠ .pass .discover := by
  intro hkind
  rcases List.mem_append.1 hc with hc | hc
  · have hnpm := h.once.2 c hc
    rw [hkind] at hnpm
    cases hnpm
  · rcases h.passes c hc with hother | hother <;> · rw [hkind] at hother; cases hother

theorem Completed.of_left_out (hmade : lacking ++ rest = before ++ c :: after) (hkind : c.kind = .npm)
    (hleft : ¬c.Delivers cache) : before = [] ∧ after = [] := by
  have hmem : c ∈ lacking := by
    have hc : c ∈ lacking ++ rest := by simp [hmade]
    refine (List.mem_append.1 hc).resolve_right fun hc => ?_
    rcases h.passes c hc with hother | hother <;> · rw [hkind] at hother; cases hother
  rcases h.delivers with rfl | hdelivers
  · rw [List.append_nil] at hmade
    exact h.once.eq_singleton hmade
  · exact absurd (hdelivers c hmem) hleft

end Completed

/-- A run whose last call is one of the package manager halts at one of the two installs. -/
theorem Traced.stage_of_npm {s : Settings} {h : Host} {e : Envelope} {stage : Stage} {before : List Call} {c : Call}
    (ht : Traced s h (.failure e stage) (before ++ [c])) (hc : c.kind = .npm) :
    (before = [] ∧ stage = .cacheReady) ∨ (∃ d ∈ before, d.kind = .pass .discover) ∧ stage = .discovered := by
  obtain ⟨base, lacking, hkinds, -⟩ := ht.kinds
  have hstage := ht.stage e stage rfl
  rw [List.map_append, List.map_singleton, hc] at hkinds
  have hlast := congrArg List.getLast? hkinds
  have hinit := congrArg List.dropLast hkinds
  rw [List.getLast?_concat] at hlast
  rw [List.dropLast_concat] at hinit
  simp only [failing, List.mem_cons, List.not_mem_nil, or_false] at hstage
  rcases hstage with rfl | rfl | rfl | rfl | rfl
  · simp [BuildResult.kinds, Stage.kinds] at hlast
  · cases base with
    | false => simp [BuildResult.kinds, Stage.kinds, Call.Kind.when] at hlast
    | true => exact .inl ⟨by simpa [BuildResult.kinds, Stage.kinds, Call.Kind.when] using hinit, rfl⟩
  · simp [BuildResult.kinds, Stage.kinds] at hlast
  · cases lacking with
    | false => simp [BuildResult.kinds, Stage.kinds, Call.Kind.when] at hlast
    | true =>
      have hmem : Call.Kind.pass .discover ∈ before.map Call.kind := by
        rw [hinit]
        simp [BuildResult.kinds, Stage.kinds, Call.Kind.when]
      exact .inr ⟨List.mem_map.1 hmem, rfl⟩
  · simp only [BuildResult.kinds, Stage.kinds, List.getLast?_concat] at hlast
    cases hlast

theorem exists_failure_of_lacking {s : Settings} {h : Host} {r : BuildResult} {base : List Call} {d c : Call}
    (ht : Traced s h r (base ++ [d, c])) (hd : d.kind = .pass .discover) (hc : c.kind = .npm) :
    ∃ e, r = .failure e .discovered := by
  cases r with
  | success script styled =>
    obtain ⟨asked, lacking, hkinds, -⟩ := ht.kinds
    have hreverse := congrArg List.reverse hkinds
    cases hs : s.styles <;> simp [BuildResult.kinds, Stage.kinds, Call.Kind.when, hs, hd, hc] at hreverse
  | failure e stage =>
    rw [List.append_cons] at ht
    rcases ht.stage_of_npm hc with ⟨hnone, -⟩ | ⟨-, rfl⟩
    · simp at hnone
    · exact ⟨e, rfl⟩

/-- If the package manager ends with success but has left out something that it was asked for, then either this was
for what every bundle needs, and the first pass is called all the same, or for what the component lacks, and the run
is halted. When the first pass is called, each package that every bundle needs was there when it was looked for, or the
package manager was asked for it and ended with success. -/
theorem run_delivers (s : Settings) (entry : Json) (h : Host) : ∃ r h' made,
    (runJson s entry).run h = (.ok r, h') ∧ h'.calls = h.calls ++ made ∧
    (∀ before c after, made = before ++ c :: after → c.kind = .npm → c.Succeeds → ¬c.Delivers (Cache.ofSettings s) →
      (before = [] ∧ ∃ d rest, after = d :: rest ∧ d.kind = .pass .discover) ∨
      (∃ d ∈ before, d.kind = .pass .discover) ∧ after = [] ∧ ∃ e, r = .failure e .discovered) ∧
    ∀ before d after, made = before ++ d :: after → d.kind = .pass .discover →
      ∀ n ∈ basePackages s.styles, Believed (Cache.ofSettings s) (ensured s h) before d n := by
  obtain ⟨r, h', made, hr, hcalls, htraced, hdelivered⟩ := run_delivered s entry h
  refine ⟨r, h', made, hr, hcalls, ?_⟩
  cases hdelivered with
  | early hbase =>
    constructor
    · rintro before c after rfl - hsucceeds
      exact absurd hsucceeds (hbase.2 c (by simp))
    · rintro before d after rfl hd
      have hnpm := hbase.1.2 d (by simp)
      rw [hd] at hnpm
      cases hnpm
  | @found base lacking rest d hbase hd hcwd hcompleted =>
    have hnpm : ∀ c ∈ base, c.kind = .npm := hbase.lacking.2
    constructor
    · intro before c after hmade hkind hsucceeds hleft
      -- the call is one before the first pass, or one after it
      rcases append_cons_cases hmade with ⟨zs, hzs, rfl⟩ | ⟨rfl, rfl, rfl⟩ | ⟨zs, rfl, hzs⟩
      · obtain ⟨rfl, rfl⟩ := hbase.lacking.eq_singleton hzs
        exact .inl ⟨rfl, d, _, rfl, hd⟩
      · rw [hd] at hkind
        cases hkind
      · obtain ⟨rfl, rfl⟩ := hcompleted.of_left_out hzs hkind hleft
        rw [hmade, List.append_assoc] at htraced
        exact .inr ⟨⟨d, by simp, hd⟩, rfl, exists_failure_of_lacking htraced hd hkind⟩
    · intro before e after hmade he
      rcases append_cons_cases hmade with ⟨zs, rfl, -⟩ | ⟨rfl, rfl, -⟩ | ⟨zs, -, hzs⟩
      · have hbase := hnpm e (by simp)
        rw [he] at hbase
        cases hbase
      · exact hbase.believed hcwd
      · exact absurd he (hcompleted.kind_ne (by simp [hzs]))

section Called

/-- A host without packages, whose package manager ends with success and installs nothing. -/
def unsupplied : Host where
  tree.entries := [(["bin"], .dir (.change 0)), (["bin", "node"], .file "" true (.change 0)),
    (["bin", "npm"], .file "" true (.change 0)), (["a.tsx"], .file "" false (.change 0))]
  env := [("PATH", "/bin")]
  outcomes.npm := [.ends 0 none "" [] .none]

/-- What can be told of a call, and whether it left the framework installed. -/
def told (c : Call) : Call.Kind × List String × Option Bool × Option Bool :=
  (c.kind, c.batch, c.result.1.toOption.map Execution.succeeded,
    (((Cache.mk (Path.ofString "/cache")).isInstalled "react").seenAt c.result.2 c.moment.cwd).toOption)

/-- The first pass is called without the packages that it needs. -/
theorem believed_without_packages : ∃ c d rest,
    ((runJson { cacheDir := Path.ofString "/cache", styles := false } (.str "a.tsx")).run unsupplied).2.calls =
      c :: d :: rest ∧
    c.kind = .npm ∧ c.Succeeds ∧ "react" ∈ c.batch ∧ ¬c.Delivers ⟨Path.ofString "/cache"⟩ ∧
    d.kind = .pass .discover := by
  have htold : ((runJson { cacheDir := Path.ofString "/cache", styles := false } (.str "a.tsx")).run
      unsupplied).2.calls.map told =
    [(.npm, ["esbuild", "react", "react-dom"], some true, some false), (.pass .discover, [], some true, some false),
      (.pass .finalize, [], some true, some false)] := by decide +kernel
  obtain ⟨c, rest, hcalls, hc, hrest⟩ := List.map_eq_cons_iff.1 htold
  obtain ⟨d, rest, rfl, hd, -⟩ := List.map_eq_cons_iff.1 hrest
  obtain ⟨hkind, hc⟩ := Prod.mk.inj hc
  obtain ⟨hbatch, hc⟩ := Prod.mk.inj hc
  obtain ⟨hsucceeds, hthere⟩ := Prod.mk.inj hc
  refine ⟨c, d, rest, hcalls, hkind, ?_, by simp [hbatch], fun hdelivers => ?_, (Prod.mk.inj hd).1⟩
  · obtain ⟨e, he, hsucceeded⟩ := Option.map_eq_some_iff.1 hsucceeds
    exact ⟨e, Except.eq_ok_of_toOption he, hsucceeded⟩
  · have hreact := hdelivers "react" (by simp [hbatch])
    have hnone := Except.eq_ok_of_toOption hthere
    unfold Cache.Has at hreact
    rw [hreact] at hnone
    cases hnone

end Called

end Run

end Bundler
