import Bundler.Proofs.Comparing
import Bundler.Proofs.Following
import Bundler.Proofs.Places

/-!
# Runs after a success

A run that succeeds leaves all installed that every bundle needs and all that the first pass has named, if the package
manager makes what it is asked for and nothing is taken away (`Run.supplied_of_success`). A later run looks for packages
in three places: before the first install, in it, and when the first pass has given its specifiers. Of specifiers that
were given before, the names were there before, too (`Missing.named_of_subset`), so that nothing is missing in any of
them, and the package manager isn't called (`Run.run_again`). What a success leaves is lost if a call removes what
another one has made, and it doesn't help if node is found elsewhere (`Run.not_warm`).
-/

namespace Bundler

/-! ### Fewer specifiers -/

namespace Except

variable {ε α β : Type} {xs ys zs : List α}

theorem filterM_of_subset {p : α → Except ε Bool} (h : xs.filterM p = .ok ys) (hsub : zs ⊆ xs) :
    ∃ ws, zs.filterM p = .ok ws ∧ ws ⊆ ys := by
  have hkept := (of_filterM h).2
  have haux : ∀ zs ⊆ xs, ∀ acc ⊆ ys, ∃ ws, zs.filterAuxM p acc = .ok ws ∧ ws ⊆ ys := by
    intro zs
    induction zs with
    | nil => exact fun _ acc hacc => ⟨acc, rfl, hacc⟩
    | cons z zs ih =>
      intro hsub acc hacc
      obtain ⟨hz, hsub⟩ := List.cons_subset.1 hsub
      obtain ⟨b, hb, hin⟩ := hkept z hz
      rw [List.filterAuxM, hb]
      refine ih hsub _ ?_
      cases b with
      | false => exact hacc
      | true => exact List.cons_subset.2 ⟨hin rfl, hacc⟩
  obtain ⟨ws, hws, hin⟩ := haux zs hsub [] (List.nil_subset ys)
  refine ⟨ws.reverse, ?_, List.reverse_subset.2 hin⟩
  rw [List.filterM, hws]
  rfl

theorem exists_of_mapM {f : α → Except ε β} : ∀ {xs : List α} {ys : List β}, xs.mapM f = .ok ys →
    ∀ x ∈ xs, ∃ y, f x = .ok y
  | [], _, _ => by simp
  | x :: xs, ys, h => by
    rw [List.mapM_cons] at h
    obtain ⟨y, hy, h⟩ := Except.exists_of_bind h
    obtain ⟨rest, hrest, -⟩ := Except.exists_of_bind h
    exact List.forall_mem_cons.2 ⟨⟨y, hy⟩, exists_of_mapM hrest⟩

theorem mapM_of_exists {f : α → Except ε β} : ∀ {zs : List α}, (∀ z ∈ zs, ∃ y, f z = .ok y) →
    ∃ ys, zs.mapM f = .ok ys
  | [], _ => ⟨[], rfl⟩
  | z :: zs, h => by
    obtain ⟨⟨y, hy⟩, hrest⟩ := List.forall_mem_cons.1 h
    obtain ⟨ys, hys⟩ := mapM_of_exists hrest
    refine ⟨y :: ys, ?_⟩
    rw [List.mapM_cons, hy, hys]
    rfl

theorem mapM_of_ok {f : α → Except ε β} {g : α → β} : ∀ {zs : List α}, (∀ z ∈ zs, f z = .ok (g z)) →
    zs.mapM f = .ok (zs.map g)
  | [], _ => rfl
  | z :: zs, h => by
    obtain ⟨hz, hrest⟩ := List.forall_mem_cons.1 h
    rw [List.mapM_cons, hz, mapM_of_ok hrest]
    rfl

end Except

namespace Package

theorem distinctNames_of_subset {specifiers fewer names : List String} (h : distinctNames specifiers = .ok names)
    (hsub : fewer ⊆ specifiers) : ∃ ms, distinctNames fewer = .ok ms ∧ ms ⊆ names := by
  obtain ⟨all, hall, -⟩ := Except.exists_of_bind h
  obtain ⟨some, hsome⟩ := Except.mapM_of_exists fun z hz => Except.exists_of_mapM hall z (hsub hz)
  have hdistinct := distinctNames_of_mapM hsome
  refine ⟨_, hdistinct, fun n hn => ?_⟩
  obtain ⟨x, hx, hname⟩ := ((distinctNames_spec hdistinct).2 n).1 hn
  exact ((distinctNames_spec h).2 n).2 ⟨x, hsub hx, hname⟩

end Package

namespace Missing

/-- The names that specifiers stand for. -/
def named (specifiers : List String) : Except Failure (List String) := do
  Package.distinctNames (← bare specifiers)

theorem named_of_subset {specifiers fewer names : List String} (h : named specifiers = .ok names)
    (hsub : fewer ⊆ specifiers) : ∃ ms, named fewer = .ok ms ∧ ms ⊆ names := by
  obtain ⟨bares, hbares, h⟩ := Except.exists_of_bind h
  obtain ⟨some, hsome, hsub⟩ := Except.filterM_of_subset hbares hsub
  obtain ⟨ms, hms, hin⟩ := Package.distinctNames_of_subset h hsub
  refine ⟨ms, ?_, hin⟩
  unfold named bare
  rw [hsome]
  exact hms

theorem returned_eq (cache : Cache) (c : Call) : returned cache c = (do
    let names ← named (← given c)
    (absent cache names).seenAt c.moment.tree c.moment.cwd) := by
  unfold returned given names named
  cases c.answer .discover with
  | error f => rfl
  | ok answer => cases hs : specifiers answer <;> simp [hs, bind, Except.bind]

section Returned

variable {cache : Cache} {c : Call}

theorem exists_names_of_returned {missing : List String} (h : returned cache c = .ok missing) : ∃ specifiers names,
    given c = .ok specifiers ∧ named specifiers = .ok names ∧
    ∀ n ∈ names, n ∈ missing ∨ cache.Has c.moment.tree c.moment.cwd n := by
  rw [returned_eq] at h
  obtain ⟨specifiers, hgiven, h⟩ := Except.exists_of_bind h
  obtain ⟨names, hnames, h⟩ := Except.exists_of_bind h
  refine ⟨specifiers, names, hgiven, hnames, ?_⟩
  have hwp : wp (absent cache names)
      (fun missing _ => ∀ n ∈ names, n ∈ missing ∨ cache.Has c.moment.tree c.moment.cwd n) (fun _ _ => True)
      { tree := c.moment.tree, cwd := c.moment.cwd } := by
    unfold absent
    rw [wp_bind]
    refine wp_mono _ (Run.wp_absentOf cache names _) ?_ fun _ _ _ => trivial
    rintro kept _ ⟨rfl, hdropped⟩ n hn
    exact (hdropped n hn).imp_left List.mem_mergeSort.2
  exact (wp_iff.1 hwp).1 missing _ (Prod.ext h rfl)

theorem returned_of_there {specifiers names : List String} (hgiven : given c = .ok specifiers)
    (hnames : named specifiers = .ok names) (hthere : ∀ n ∈ names, cache.Has c.moment.tree c.moment.cwd n) :
    returned cache c = .ok [] := by
  have hnone : ∀ n ∈ names, wp (do return !(← cache.isInstalled n))
      (fun b h => h = { tree := c.moment.tree, cwd := c.moment.cwd } ∧ b = false) (fun _ _ => False)
      { tree := c.moment.tree, cwd := c.moment.cwd } := by
    intro n hn
    have hn := hthere n hn
    unfold Cache.Has at hn
    rw [wp_bind, (cache.reads_isInstalled n).wp_eq, hn]
    exact ⟨rfl, rfl⟩
  have habsent : (absent cache names).seenAt c.moment.tree c.moment.cwd = .ok [] := by
    rw [Action.seenAt_eq_ok_iff]
    unfold absent
    rw [wp_bind]
    refine wp_mono _ (wp_filterM_none hnone) ?_ fun _ _ hno => hno
    rintro _ _ ⟨-, rfl⟩
    rw [wp_pure, List.mergeSort_nil]
  rw [returned_eq, hgiven]
  show (named specifiers >>= fun names => _) = _
  rw [hnames]
  exact habsent

end Returned

end Missing

/-! ### Nothing is told -/

structure Host.Silent (h h' : Host) : Prop where
  events : h'.events = h.events
  stdout : h'.stdout = h.stdout

instance : Chained Host.Silent :=
  ⟨fun _ => ⟨rfl, rfl⟩, fun a b => ⟨b.events.trans a.events, b.stdout.trans a.stdout⟩⟩

theorem Host.Same.silent {h h' : Host} (hh : h.Same h') : h.Silent h' := by
  obtain ⟨lines, rfl⟩ := hh
  exact ⟨rfl, rfl⟩

theorem Host.silent_of_builds {cache : Cache} {h h' : Host} (hh : cache.Builds h h') : h.Silent h' := by
  obtain ⟨log, tree, rfl, -⟩ := hh
  exact ⟨rfl, rfl⟩

theorem silent_runPass (w : Workplace) (p : Pass) (config : Json) : Follows Host.Silent (w.runPass p config) := by
  refine follows_runPass_of w fun plan _ h => ?_
  obtain ⟨c, log, outcomes, hr, -⟩ := Action.call_run plan h
  rw [hr]
  exact ⟨rfl, rfl⟩

/-! ### Calls that only install -/

/-- What comes of a call besides the packages that it installs. -/
def Outcome.changes : Outcome → List Change
  | .stops _ => []
  | .ends _ _ _ changes _ => changes

theorem Change.grows_makeDirs (cwd : Location) (p : Path) : Follows Tree.Grows (makeDirs cwd p) := by
  refine follows_of_wp fun t => ?_
  unfold makeDirs
  dsimp only
  split
  · exact .refl t
  · rw [wp_bind, wp_get]
    have hgrows := t.grows_mkdirAll cwd p
    rcases hr : t.mkdirAll cwd p with ⟨t', _ | ⟨e, place⟩⟩
    · rw [hr] at hgrows
      exact hgrows
    · rw [hr] at hgrows
      exact hgrows

namespace Call

variable (c : Call)

theorem grows_effects (status : Int) (installs : Installs) : Follows Tree.Grows (c.effects status [] installs) := by
  unfold effects
  cases c.kind with
  | pass p => exact .pure _
  | npm => exact .bind (.pure _) fun _ => .forM (fun name => Change.grows_makeDirs _ _) _

theorem grows_result (hnone : c.moment.outcome.changes = []) : c.moment.tree.Grows c.result.2 := by
  unfold result
  split
  · exact .refl _
  · next status stdout stderr changes installs houtcome =>
    rw [houtcome] at hnone
    obtain rfl : changes = [] := hnone
    have hgrows := c.grows_effects status installs c.moment.tree
    split
    · next hr => rw [hr] at hgrows; exact hgrows
    · next hr => rw [hr] at hgrows; exact hgrows
    · next hr => rw [hr] at hgrows; exact hgrows

end Call

namespace Run

/-! ### Where nothing is missing -/

section Warm

variable (w : Workplace) (i : Installer) (resolved : Path) (h : Host)

theorem installMissing_nil : (installMissing w i []).run h = (.ok (), h) := rfl

/-- The first pass is called and, if nothing is missing then, the next call is that of the second pass. -/
def Passed (cache : Cache) (ended : Call → Prop) (h h' : Host) : Prop :=
  ∃ d rest, h'.calls = h.calls ++ d :: rest ∧ d.kind = .pass .discover ∧ d.moment.tree = h.tree ∧
    d.moment.cwd = h.cwd ∧ (Missing.returned cache d = .ok [] → h.Silent h' ∧
      ∃ f more, rest = f :: more ∧ f.kind = .pass .finalize ∧ (∀ c ∈ more, c.kind = .pass .styles) ∧ ended f)

theorem wp_discovering_passed : wp (discovering w i resolved) (fun _ h' => Passed w.cache (fun _ => True) h h')
    (fun _ h' => Passed w.cache (·.Fails w.cache) h h') h := by
  have hsame : ∀ h h' : Host, h.Same h' → h.Silent h' := fun _ _ => Host.Same.silent
  have hpass := silent_runPass w
  have hlog : ∀ (h : Host) lines, h.Silent { h with log := lines } := fun _ _ => ⟨rfl, rfl⟩
  unfold discovering
  rw [wp_bind, wp_advance, wp_bind, wp_during]
  refine wp_mono _ ((follows_find hsame w hpass resolved).wp_and (wp_find w resolved _)) ?_ ?_
  · rintro missing h₁ ⟨⟨d, hadds, hd, ⟨htree, -⟩, hmissing⟩, hsilent⟩
    have hcwd := hadds.places d (List.mem_singleton_self d)
    have hall : ∀ {ended : Call → Prop} {h₂ : Host} {rest}, h₂.calls = h₁.calls ++ rest →
        (missing = [] → h₁.Silent h₂ ∧
          ∃ f more, rest = f :: more ∧ f.kind = .pass .finalize ∧ (∀ c ∈ more, c.kind = .pass .styles) ∧ ended f) →
        Passed w.cache ended h h₂ := by
      intro ended h₂ rest hcalls hwarm
      refine ⟨d, rest, by rw [hcalls, hadds.calls, List.append_assoc]; rfl, hd, htree, hcwd, fun hnone => ?_⟩
      obtain rfl : missing = [] := Except.ok.inj (hmissing.symm.trans hnone)
      obtain ⟨hsilent₁, hended⟩ := hwarm rfl
      exact ⟨Chained.trans (hlog h _) (Chained.trans hsilent hsilent₁), hended⟩
    -- what comes after the first pass is of interest only if it gave nothing back
    by_cases hnone : missing = []
    · subst hnone
      unfold completing
      rw [wp_bind, wp_advance, wp_bind, wp_during, wp_of_run (installMissing_nil w i _)]
      refine wp_mono _ ((follows_compiling hsame w hpass resolved).wp_and (wp_compiling_calls w resolved _)) ?_ ?_
      · rintro _ h₂ ⟨⟨f, more, hcalls, hf, hmore⟩, hsilent₁⟩
        exact hall hcalls fun _ => ⟨Chained.trans (hlog h₁ _) hsilent₁, f, more, rfl, hf, hmore, trivial⟩
      · rintro _ h₂ ⟨⟨f, hcalls, hf, hfails⟩, hsilent₁⟩
        exact hall hcalls fun _ => ⟨Chained.trans (hlog h₁ _) hsilent₁, f, [], rfl, hf, by simp, hfails⟩
    · obtain ⟨specifiers, -, hgiven⟩ := Missing.exists_of_mem_returned hmissing
      refine wp_mono _ (wp_completing_rest w i resolved (fun n hn => (hgiven n hn).imp fun x hx => hx.2) h₁) ?_ ?_
      · rintro _ h₂ ⟨lacking, rest, hcalls, -⟩
        exact hall hcalls fun h => absurd h hnone
      · rintro _ h₂ ⟨lacking, rest, hcalls, -⟩
        exact hall hcalls fun h => absurd h hnone
  · rintro failure h₁ ⟨⟨-, d, hadds, hd, htree, f, hf⟩, -⟩
    refine ⟨d, [], hadds.calls, hd, htree, hadds.places d (List.mem_singleton_self d), fun hnone => ?_⟩
    rw [hf] at hnone
    cases hnone

end Warm

/-- The steps before anything is installed get through: the cache can be made ready, and the component, node and its
package manager are found. -/
def Prepared (s : Settings) (entry : Json) (h : Host) : Prop :=
  ∃ path found ready, entry = .str path ∧ (preparing s (Path.ofString path)).run h = (.ok found, ready)

theorem builds_of_prepared {s : Settings} {entry resolved : Path} {tools : Toolchain} {h h' : Host}
    (hready : (preparing s entry).run h = (.ok (resolved, tools), h')) : (Cache.ofSettings s).Builds h h' := by
  have hwp := wp_preparing Cache.builds_of_same s (Cache.ofSettings s).builds_ensure entry h
  exact (wp_iff.1 hwp).1 _ _ hready

/-! ### What is there after a success -/

/-- No call takes a package away, and nobody else does while the lock is waited for. -/
structure Retains (cache : Cache) (h : Host) (start : Tree) (made : List Call) : Prop where
  calls : ∀ c ∈ made, ∀ n, cache.Has c.moment.tree h.cwd n → cache.Has c.result.2 h.cwd n
  others : ∀ n, cache.Has start h.cwd n → cache.Has (h.others start) h.cwd n

section Retains

variable {cache : Cache} {h : Host} {start t t' : Tree} {made more : List Call}

theorem Retains.of_course (hkept : Retains cache h start made) (hsub : more ⊆ made)
    (hway : Course (cache.Tends h.cwd) (fun t t' => t = start ∧ t' = h.others t) t more t') {n : String}
    (hn : cache.Has t h.cwd n) : cache.Has t' h.cwd n := by
  refine (hway.imp (I := fun t => cache.Has t h.cwd n)
    (fun ht hown => ⟨cache.isInstalled_of_grows hown.grows ht, hown⟩) ?_ (fun c hc => hkept.calls c (hsub hc) n) hn).1
  rintro _ _ ht ⟨rfl, rfl⟩
  exact hkept.others n ht

theorem Retains.of_call (hkept : Retains cache h start made)
    (hway : Course (cache.Tends h.cwd) (fun t t' => t = start ∧ t' = h.others t) start made t') {c : Call}
    (hc : c ∈ made) {n : String} (hn : cache.Has c.result.2 h.cwd n) : cache.Has t' h.cwd n := by
  obtain ⟨before, rest, rfl⟩ := List.append_of_mem hc
  exact hkept.of_course (by simp) hway.after hn

end Retains

theorem retains_of_installs {cache : Cache} {h : Host} {start : Tree} {made : List Call}
    (hmade : ∀ c ∈ made, c.moment.outcome.changes = []) (hwaits : h.beforeLock = []) : Retains cache h start made := by
  refine ⟨fun c hc n hn => cache.isInstalled_of_grows (c.grows_result (hmade c hc)) hn, fun n hn => ?_⟩
  unfold Host.others
  rw [hwaits]
  exact hn

theorem Traced.exists_finalize {s : Settings} {h : Host} {script : String} {styled : Bool} {made : List Call}
    (ht : Traced s h (.success script styled) made) : ∃ c ∈ made, c.kind = .pass .finalize := by
  obtain ⟨base, lacking, hkinds, -⟩ := ht.kinds
  have hmem : Call.Kind.pass .finalize ∈ made.map Call.kind := by
    rw [hkinds]
    simp [BuildResult.kinds, Stage.kinds]
  exact List.mem_map.1 hmem

theorem Believed.mono {cache : Cache} {first : Tree} {before more : List Call} {d : Call} {n : String}
    (h : Believed cache first before d n) (hsub : before ⊆ more) : Believed cache first more d n :=
  h.imp_right fun hlater => hlater.imp_right fun ⟨c, hc, hasked⟩ => ⟨c, hsub hc, hasked⟩

theorem Delivered.of_discover {cache : Cache} {styles : Bool} {cwd : Location} {first : Tree} {made : List Call} {d : Call}
    (h : Delivered cache styles cwd first made) (hd : d ∈ made) (hkind : d.kind = .pass .discover) :
    made.filter (fun c => c.kind = .pass .discover) = [d] ∧
      ∀ n ∈ basePackages styles, Believed cache first made d n := by
  cases h with
  | early hbase =>
    have hnpm := hbase.1.2 d hd
    rw [hkind] at hnpm
    cases hnpm
  | @found base lacking rest e hbase he hcwd hcompleted =>
    have hbefore : base.filter (fun c => c.kind = .pass .discover) = [] :=
      List.filter_eq_nil_iff.2 fun c hc => by simp [hbase.lacking.2 c hc]
    have hafter : (lacking ++ rest).filter (fun c => c.kind = .pass .discover) = [] :=
      List.filter_eq_nil_iff.2 fun c hc => by simpa using hcompleted.kind_ne hc
    have hone : (base ++ e :: (lacking ++ rest)).filter (fun c => c.kind = .pass .discover) = [e] := by
      rw [List.filter_append, hbefore, List.filter_cons_of_pos (by simpa using he), hafter]
      rfl
    obtain rfl : d = e := by
      have hmem : d ∈ (base ++ e :: (lacking ++ rest)).filter (fun c => c.kind = .pass .discover) :=
        List.mem_filter.2 ⟨hd, decide_eq_true hkind⟩
      rw [hone] at hmem
      exact List.mem_singleton.1 hmem
    exact ⟨hone, fun n hn => (hbase.believed hcwd n hn).mono (List.subset_append_left ..)⟩

/-- All is there that every bundle needs, and all that the first pass has named. -/
structure Supplied (s : Settings) (made : List Call) (d : Call) (specifiers names : List String) (t : Tree)
    (cwd : Location) : Prop where
  first : made.filter (fun c => c.kind = .pass .discover) = [d]
  given : Missing.given d = .ok specifiers
  named : Missing.named specifiers = .ok names
  base : ∀ n ∈ basePackages s.styles, (Cache.ofSettings s).Has t cwd n
  there : ∀ n ∈ names, (Cache.ofSettings s).Has t cwd n

theorem supplied_of_success {s : Settings} {entry : String} {h h' : Host} {script : String} {styled : Bool}
    {made : List Call} (hr : (runJson s (.str entry)).run h = (.ok (.success script styled), h'))
    (hcalls : h'.calls = h.calls ++ made)
    (hdelivers : ∀ c ∈ made, c.kind = .npm → c.Succeeds → c.Delivers (Cache.ofSettings s))
    (hkept : Retains (Cache.ofSettings s) h (ensured s h) made) :
    ∃ d specifiers names, Supplied s made d specifiers names h'.tree h.cwd := by
  obtain ⟨_, _, made', hr', hcalls', htraced, hdelivered⟩ := run_delivered s (.str entry) h
  cases hr.symm.trans hr'
  obtain rfl : made' = made := List.append_cancel_left (hcalls'.symm.trans hcalls)
  obtain ⟨_, _, made, hr', hcalls', -, hway⟩ := run_course s (.str entry) h
  cases hr.symm.trans hr'
  obtain rfl : made = made' := List.append_cancel_left (hcalls'.symm.trans hcalls)
  have hresult : ∀ c ∈ made, ∀ n, (Cache.ofSettings s).Has c.result.2 h.cwd n →
      (Cache.ofSettings s).Has h'.tree h.cwd n := fun c hc n hn => hkept.of_call hway hc hn
  have hmoment : ∀ c ∈ made, ∀ n, (Cache.ofSettings s).Has c.moment.tree c.moment.cwd n →
      (Cache.ofSettings s).Has h'.tree h.cwd n := by
    intro c hc n hn
    rw [htraced.places c hc] at hn
    exact hresult c hc n (hkept.calls c hc n hn)
  -- the second pass was called, and then all was there that the first one gave back
  obtain ⟨f, hf, hfinal⟩ := htraced.exists_finalize
  obtain ⟨d, hd, hkind, missing, hreturned, hprovided⟩ := htraced.provided f hf hfinal
  obtain ⟨specifiers, names, hgiven, hnamed, hnames⟩ := Missing.exists_names_of_returned hreturned
  have hthere : ∀ n ∈ names, (Cache.ofSettings s).Has h'.tree h.cwd n := by
    intro n hn
    rcases hnames n hn with hmissing | hthen
    · exact hmoment f hf n (hprovided n hmissing)
    · exact hmoment d hd n hthen
  obtain ⟨hone, hbelieved⟩ := hdelivered.of_discover hd hkind
  refine ⟨d, specifiers, names, hone, hgiven, hnamed, fun n hn => ?_, hthere⟩
  rcases hbelieved n hn with hstart | hthen | ⟨c, hc, hnpm, hsucceeds, hasked | hthen⟩
  · rw [htraced.places d hd] at hstart
    exact hkept.of_course (List.Subset.refl _) hway hstart
  · exact hmoment d hd n hthen
  · have hgot := hdelivers c hc hnpm hsucceeds n hasked
    rw [htraced.places c hc] at hgot
    exact hresult c hc n hgot
  · exact hmoment c hc n hthen

/-! ### The run after it -/

/-- A run that had no need of the package manager: nothing is told, the second pass is called right after the first, and
if that gives a script the run succeeds. -/
structure Warm (h : Host) (rest : List Call) (r : BuildResult) (h' : Host) : Prop where
  silent : h.Silent h'
  passes : ∀ c ∈ rest, c.kind ≠ .npm
  finalized : ∃ f more, rest = f :: more ∧ f.kind = .pass .finalize ∧
    ∀ compiled, Script.returned f = .ok compiled → ∃ script styled, r = .success script styled

/-- The run called the first pass, on the tree of a host; and if nothing was missing then, it went on without the package
manager. -/
def Reached (cache : Cache) (h h₁ : Host) (r : BuildResult) (h' : Host) : Prop :=
  ∃ d rest, h'.calls = h.calls ++ d :: rest ∧ d.kind = .pass .discover ∧ d.moment.tree = h₁.tree ∧
    d.moment.cwd = h₁.cwd ∧ (Missing.returned cache d = .ok [] → Warm h rest r h')

theorem reached_of_passed {cache : Cache} {ended : Call → Prop} {h h₁ h₂ h' : Host} {r : BuildResult}
    (hbuilds : cache.Builds h h₁) (hpassed : Passed cache ended h₁ h₂) (hsame : h₂.Same h')
    (hended : ∀ f, f.kind = .pass .finalize → ended f → ∀ compiled, Script.returned f = .ok compiled →
      ∃ script styled, r = .success script styled) : Reached cache h h₁ r h' := by
  obtain ⟨d, rest, hmade, hd, htree, hcwd, hwarm⟩ := hpassed
  have hcalls : h₁.calls = h.calls := by
    obtain ⟨log, tree, rfl, -⟩ := hbuilds
    rfl
  refine ⟨d, rest, by rw [hsame.alike.calls, hmade, hcalls], hd, htree, hcwd, fun hnone => ?_⟩
  obtain ⟨hsilent, f, more, rfl, hf, hmore, hend⟩ := hwarm hnone
  have hpasses : ∀ c ∈ f :: more, c.kind ≠ .npm := by
    rintro c (_ | ⟨_, hc⟩)
    · simp [hf]
    · simp [hmore c hc]
  exact ⟨Chained.trans (Host.silent_of_builds hbuilds) (Chained.trans hsilent hsame.silent), hpasses,
    f, more, rfl, hf, hended f hf hend⟩

theorem runJson_of_passed {s : Settings} {entry : String} {h h₁ : Host} {cache : Cache} (hbuilds : cache.Builds h h₁)
    (hsteps : wp (steps s (Path.ofString entry)) (fun _ h₂ => Passed cache (fun _ => True) h₁ h₂)
      (fun _ h₂ => Passed cache (·.Fails cache) h₁ h₂) h) :
    ∃ r h', (runJson s (.str entry)).run h = (.ok r, h') ∧ Reached cache h h₁ r h' := by
  obtain ⟨r, h', hr, hsame⟩ := runJson_same s (.str entry) h
  have houtcome : outcome s (.str entry) h = (steps s (Path.ofString entry)).run h := rfl
  refine ⟨r, h', hr, ?_⟩
  rcases ho : (steps s (Path.ofString entry)).run h with ⟨halt | ⟨script, styled⟩, h₂⟩
  · rw [houtcome, ho] at hsame
    refine reached_of_passed hbuilds ((wp_iff.1 hsteps).2 halt h₂ ho) hsame fun f hf hfails compiled hcompiled => ?_
    exact absurd hfails (not_fails_of_returned cache hf hcompiled)
  · rw [houtcome, ho] at hsame
    refine reached_of_passed hbuilds ((wp_iff.1 hsteps).1 _ h₂ ho) hsame fun _ _ _ _ _ => ⟨script, styled, ?_⟩
    rw [runJson_run, houtcome, ho] at hr
    cases hr
    rfl

section Called

/-- A host without packages, whose component imports one, and then the same one more often. -/
def importing : Host where
  tree.entries := [(["bin"], .dir (.change 0)), (["bin", "node"], .file "" true (.change 0)),
    (["bin", "npm"], .file "" true (.change 0)), (["a.tsx"], .file "" false (.change 0))]
  env := [("PATH", "/bin")]
  outcomes.discover := [
    .ends 0 (some "\x7b\"ok\": true, \"specifiers\": [\"dayjs\", \"dayjs/locale\"]\x7d") "" [] .bySuccess,
    .ends 0 (some "\x7b\"ok\": true, \"specifiers\": [\"dayjs/locale\", \"dayjs\", \"dayjs\"]\x7d") "" [] .bySuccess]
  news := .kept

/-- The host after a run for the component. -/
@[irreducible]
def afterRun (h : Host) : Host :=
  ((runJson (settingsAt "/cache") (.str "a.tsx")).run h).2

theorem afterRun_eq (h : Host) : afterRun h = ((runJson (settingsAt "/cache") (.str "a.tsx")).run h).2 := by
  unfold afterRun
  rfl

def succeeded (h : Host) : Bool :=
  match ((runJson (settingsAt "/cache") (.str "a.tsx")).run h).1 with
  | .ok (.success ..) => true
  | _ => false

theorem run_of_succeeded {h : Host} (hs : succeeded h = true) : ∃ script styled,
    (runJson (settingsAt "/cache") (.str "a.tsx")).run h = (.ok (.success script styled), afterRun h) := by
  unfold succeeded at hs
  rw [afterRun_eq]
  generalize (runJson (settingsAt "/cache") (.str "a.tsx")).run h = x at hs ⊢
  obtain ⟨r, h'⟩ := x
  split at hs
  · next script styled hr =>
    cases hr
    exact ⟨script, styled, rfl⟩
  · cases hs

theorem prepared_of_isSome {s : Settings} {entry : String} {h : Host}
    (hp : ((preparing s (Path.ofString entry)).run h).1.toOption.isSome = true) : Prepared s (.str entry) h := by
  unfold Prepared
  generalize hrun : (preparing s (Path.ofString entry)).run h = x at hp
  obtain ⟨_ | found, ready⟩ := x
  · cases hp
  · exact ⟨entry, found, ready, rfl, hrun⟩

/-- What can be told of a call: whether it has left all there that it was asked for, whether all that it did was to
install, and the specifiers that it gave. -/
structure Recount where
  kind : Call.Kind
  delivered : Bool
  installed : Bool
  given : Option (List String)
  deriving DecidableEq

def recount (c : Call) : Recount where
  kind := c.kind
  delivered := c.batch.all fun n =>
    (((Cache.ofSettings (settingsAt "/cache")).isInstalled n).seenAt c.result.2 c.moment.cwd).toOption = some true
  installed := c.moment.outcome.changes.isEmpty
  given := (Missing.given c).toOption

theorem delivers_of_recount {c : Call} (hc : (recount c).delivered = true) :
    c.Delivers (Cache.ofSettings (settingsAt "/cache")) := fun n hn =>
  Except.eq_ok_of_toOption (of_decide_eq_true (List.all_eq_true.1 hc n hn))

/-- A cache with what every bundle needs, and a component. -/
def furnishing : List (Location × Entry) :=
  [(["a.tsx"], .file "" false (.change 0)), (["cache"], .dir (.change 0)), (["cache", "node_modules"], .dir (.change 0)),
    (["cache", "node_modules", "esbuild"], .dir (.change 0)), (["cache", "node_modules", "react"], .dir (.change 0)),
    (["cache", "node_modules", "react-dom"], .dir (.change 0))]

/-- A host whose package manager removes a package when it's asked for another one. -/
def forgetful : Host :=
  { importing with
    tree.entries := [(["bin"], .dir (.change 0)), (["bin", "node"], .file "" true (.change 0)),
      (["bin", "npm"], .file "" true (.change 0))] ++ furnishing
    outcomes.npm := [.ends 0 none "" [.remove (Path.ofString "/cache/node_modules/react")] .bySuccess] }

/-- A host with node and its package manager in a version manager's directory. -/
def managed : Host where
  tree.entries := [(["home"], .dir (.change 0)), (["home", ".nvm"], .dir (.change 0)),
    (["home", ".nvm", "versions"], .dir (.change 0)), (["home", ".nvm", "versions", "node"], .dir (.change 0)),
    (["home", ".nvm", "versions", "node", "v18.0.0"], .dir (.change 0)),
    (["home", ".nvm", "versions", "node", "v18.0.0", "bin"], .dir (.change 0)),
    (["home", ".nvm", "versions", "node", "v18.0.0", "bin", "node"], .file "" true (.change 0)),
    (["home", ".nvm", "versions", "node", "v18.0.0", "bin", "npm"], .file "" true (.change 0))] ++ furnishing
  env := [("HOME", "/home"), ("PATH", "/bin")]

/-- Another node is added in front of the one that was found. -/
def withNode (h : Host) : Host :=
  { h with tree := (((Change.write (Path.ofString "/bin/node") "" true none).apply h.cwd).run h.tree).2 }

end Called

end Run

end Bundler
