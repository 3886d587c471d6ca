import Bundler.Proofs.Calling
import Bundler.Proofs.Names
import Bundler.Proofs.Reading

/-!
# What an installer asks for

An install looks twice at what is missing, and gives every name to `Package.nameOf` each time. `wp_install` says
what comes of it: either nothing was called and the installer is as before, or the package manager was called
once, for names that are their own names and that neither this installer asked for before nor the cache had at
that moment (`Asked`). An installer's account (`Account`) is therefore kept by all that it does, whatever
others do in between: no name is in two of its calls, and it remembers exactly the names that are in one
(`account_of_session`).
-/

namespace Bundler

namespace Package

theorem mem_of_mapM_nameOf : ∀ {specifiers names : List String}, specifiers.mapM nameOf = .ok names →
    ∀ n, n ∈ names ↔ ∃ s ∈ specifiers, nameOf s = .ok n
  | [], names, h, n => by
    cases h
    simp
  | s :: specifiers, names, h, n => by
    rw [List.mapM_cons] at h
    cases hs : nameOf s with
    | error f => rw [hs] at h; cases h
    | ok m =>
      cases hrest : specifiers.mapM nameOf with
      | error f => rw [hs, hrest] at h; cases h
      | ok rest =>
        rw [hs, hrest] at h
        cases h
        simp [hs, mem_of_mapM_nameOf hrest n, eq_comm]

theorem distinctNames_of_mapM {specifiers ns : List String} (h : specifiers.mapM nameOf = .ok ns) :
    distinctNames specifiers = .ok (distinct ns) := by
  unfold distinctNames
  rw [h]
  rfl

/-- The names of specifiers are all their names, each once. -/
theorem distinctNames_spec {specifiers names : List String} (h : distinctNames specifiers = .ok names) :
    names.Nodup ∧ ∀ n, n ∈ names ↔ ∃ s ∈ specifiers, nameOf s = .ok n := by
  unfold distinctNames at h
  cases hs : specifiers.mapM nameOf with
  | error f => rw [hs] at h; cases h
  | ok all =>
    rw [hs] at h
    cases h
    exact ⟨distinct_nodup all, fun n => mem_distinct.trans (mem_of_mapM_nameOf hs n)⟩

end Package

namespace Installer

variable (w : Workplace)

/-- The name isn't installed, as seen from a tree and a working directory. -/
def Lacks (t : Tree) (cwd : Location) (n : String) : Prop :=
  (w.cache.isInstalled n).seenAt t cwd = .ok false

/-- What a look at a name tells. -/
def Told (s : Installer × Host) (n : String) : Bool → Prop
  | true => n ∉ s.1.requested ∧ Lacks w s.2.tree s.2.cwd n
  | false => n ∈ s.1.requested ∨ w.cache.Has s.2.tree s.2.cwd n

theorem wp_isPending (n : String) (s : Installer × Host) : wp (isPending w n) (fun b s' => s' = s ∧ Told w s n b)
    (fun f s' => s' = s ∧ f.Plain) s := by
  unfold isPending
  rw [wp_bind, wp_kept]
  split
  · next hreq => exact ⟨rfl, .inl (by simpa using hreq)⟩
  · next hreq =>
    rw [wp_bind, wp_lift]
    refine wp_mono _ ((w.cache.reads_isInstalled n).wp_seenAt (w.cache.looks_isInstalled n) s.2) ?_ ?_
    · rintro b h' ⟨rfl, hb⟩
      cases b with
      | true => exact ⟨rfl, .inr hb⟩
      | false => exact ⟨rfl, by simpa using hreq, hb⟩
    · rintro f h' ⟨rfl, -, hf⟩
      exact ⟨rfl, hf⟩

/-- What is pending are names of specifiers, not asked for before and not installed; of every other name one of
both is so. Looking changes nothing. -/
structure Pending (specifiers : List String) (s : Installer × Host) (batch : List String) : Prop where
  nodup : batch.Nodup
  named : ∀ n ∈ batch, ∃ a ∈ specifiers, Package.nameOf a = .ok n
  told : ∀ n ∈ batch, Told w s n true
  left : ∀ a ∈ specifiers, ∀ n, Package.nameOf a = .ok n → n ∈ batch ∨ Told w s n false

theorem wp_pending (specifiers : List String) (s : Installer × Host) : wp (pending w specifiers)
    (fun batch s' => s' = s ∧ Pending w specifiers s batch) (fun f s' => s' = s ∧ f.Plain) s := by
  unfold pending
  rw [wp_bind, wp_ofExcept]
  split
  · next names hnames =>
    obtain ⟨hnodup, hmem⟩ := Package.distinctNames_spec hnames
    have hp : ∀ n t, t = s → wp (isPending w n) (fun b t' => t' = s ∧ Told w s n b)
        (fun f t' => t' = s ∧ f.Plain) t := by
      rintro n _ rfl
      exact wp_isPending w n _
    refine wp_mono _ (wp_filterM hp names rfl) ?_ fun _ _ h => h
    rintro batch _ ⟨rfl, hsub, hkept, hleft⟩
    exact ⟨rfl, hsub.nodup hnodup, fun n hn => (hmem n).1 (hsub.subset hn), hkept,
      fun a ha n hn => hleft n ((hmem n).2 ⟨a, ha, hn⟩)⟩
  · next f hf => exact ⟨rfl, Package.plain_distinctNames specifiers f hf⟩

/-! ### One call of the package manager -/

/-- The call that asks for a batch. -/
def batchCall (batch : List String) : Call :=
  w.toolchain.npmCall (arguments w batch) w.cache.root w.settings.installTimeout

/-- The failure of a batch whose call isn't a success. -/
def refusal (batch : List String) (c : Call) : Failure :=
  match c.result.1 with
  | .error f => callFailure w batch f
  | .ok e => exitFailure batch e

theorem plain_callFailure (batch : List String) {f : Failure} (hf : f.Plain) : (callFailure w batch f).Plain := by
  unfold callFailure
  split
  · split
    · next f' hseconds =>
      unfold secondsText Settings.seconds at hseconds
      split at hseconds
      · cases hseconds
      · cases hseconds
        exact Failure.plain_own rfl
    · exact Failure.plain_bundle rfl (by simp)
  · exact hf

theorem plain_exitFailure (batch : List String) (e : Execution) : (exitFailure batch e).Plain := by
  unfold exitFailure
  dsimp only
  split <;> exact Failure.plain_bundle rfl (by simp)

theorem wp_runBatch (batch : List String) (s : Installer × Host) : wp (runBatch w batch)
    (fun _ s' => s'.1 = { s.1 with calls := s.1.calls + 1 } ∧
      ∃ c, s.2.Called (batchCall w batch) c s'.2 ∧ c.Succeeds)
    (fun f s' => s'.1 = { s.1 with calls := s.1.calls + 1 } ∧ f.Plain ∧
      ∃ c, s.2.Called (batchCall w batch) c s'.2 ∧ ¬c.Succeeds ∧ f = refusal w batch c) s := by
  unfold runBatch
  rw [wp_bind, wp_lift, wp_write, wp_bind, wp_update, wp_bind, wp_lift, wp_attempt]
  refine wp_mono _ (wp_call (batchCall w batch) _) ?_ ?_
  · rintro e h' ⟨c, hc, he⟩
    have hc' := hc.since (.log _ _) rfl
    dsimp only
    rw [wp_ite]
    split
    · next hfailed =>
      have hfails : ¬c.Succeeds := by simpa [Call.succeeds_iff_of_ok he] using hfailed
      exact ⟨rfl, plain_exitFailure batch e, c, hc', hfails, by unfold refusal; rw [he]⟩
    · next hsucceeded => exact ⟨rfl, c, hc', e, he, by simpa using hsucceeded⟩
  · rintro f h' ⟨c, hc, hf⟩
    exact ⟨rfl, plain_callFailure w batch (c.plain_result f hf), c, hc.since (.log _ _) rfl,
      Call.not_succeeds_of_error hf, by unfold refusal; rw [hf]⟩

/-! ### An install -/

/-- What is asked for at a moment: some names, each once, that are their own names and that neither this installer
asked for before nor the cache has. -/
structure Batch (i : Installer) (t : Tree) (cwd : Location) (batch : List String) : Prop where
  nonempty : batch ≠ []
  nodup : batch.Nodup
  names : ∀ n ∈ batch, Package.nameOf n = .ok n
  fresh : ∀ n ∈ batch, n ∉ i.requested
  lacking : ∀ n ∈ batch, Lacks w t cwd n

/-- An install that called the package manager once, for a batch. -/
structure Asked (s : Installer × Host) (batch : List String) (c : Call) (s' : Installer × Host) : Prop where
  chosen : Batch w s.1 c.moment.tree c.moment.cwd batch
  installer : s'.1 = ⟨s.1.requested ++ batch, s.1.calls + 1⟩
  called : ∃ h, s.2.Alike h ∧ h.Called (batchCall w batch) c s'.2

/-- The names come from specifiers: each is the name of the name of one. -/
def Named (specifiers batch : List String) : Prop :=
  ∀ n ∈ batch, ∃ a ∈ specifiers, ∃ m, Package.nameOf a = .ok m ∧ Package.nameOf m = .ok n

/-- An install that called nothing. -/
def Idle (s s' : Installer × Host) : Prop :=
  s'.1 = s.1 ∧ s.2.Alike s'.2

/-- Of the names among the specifiers that are their own names, each is in the batch or was asked for before or was
there at one of the two looks, each at a tree. -/
def Sought (c : Cache) (specifiers : List String) (i : Installer) (cwd : Location) (first second : Tree)
    (batch : List String) : Prop :=
  ∀ n ∈ specifiers, Package.nameOf n = .ok n →
    n ∈ batch ∨ n ∈ i.requested ∨ c.Has first cwd n ∨ c.Has second cwd n

/-- With the lock held, names of names are asked for. -/
theorem wp_installLocked {given specifiers : List String}
    (hnames : ∀ a ∈ specifiers, ∃ b ∈ given, Package.nameOf b = .ok a) (s : Installer × Host) :
    wp (installLocked w specifiers)
      (fun batch s' => Sought w.cache specifiers s.1 s.2.cwd s.2.tree s.2.tree batch ∧
        ((batch = [] ∧ Idle s s' ∧ s'.2.tree = s.2.tree) ∨
          ∃ c, Asked w s batch c s' ∧ c.moment.tree = s.2.tree ∧ Named given batch ∧ c.Succeeds))
      (fun f s' => f.Plain ∧
        (Idle s s' ∨ ∃ batch c, Asked w s batch c s' ∧ Named given batch ∧ ¬c.Succeeds ∧ f = refusal w batch c)) s := by
  unfold installLocked
  rw [wp_bind]
  refine wp_mono _ (wp_pending w specifiers s) ?_ ?_
  · rintro batch s' ⟨rfl, hbatch⟩
    have hsought : Sought w.cache specifiers s'.1 s'.2.cwd s'.2.tree s'.2.tree batch := fun n hn hself =>
      (hbatch.left n hn n hself).imp_right fun htold => htold.imp_right .inl
    rw [wp_ite]
    split
    · next hempty =>
      obtain rfl : batch = [] := List.isEmpty_iff.1 hempty
      exact ⟨hsought, .inl ⟨rfl, ⟨rfl, .refl _⟩, rfl⟩⟩
    · next hnonempty =>
      have hnamed : Named given batch := by
        intro n hn
        obtain ⟨a, ha, hna⟩ := hbatch.named n hn
        obtain ⟨b, hb, hab⟩ := hnames a ha
        exact ⟨b, hb, a, hab, hna⟩
      have hb : Batch w s'.1 s'.2.tree s'.2.cwd batch :=
        { nonempty := by simpa using hnonempty
          nodup := hbatch.nodup
          names := by
            intro n hn
            obtain ⟨b, -, a, hab, hna⟩ := hnamed n hn
            exact Package.nameOf_of_nameOf hab hna
          fresh := fun n hn => (hbatch.told n hn).1
          lacking := fun n hn => (hbatch.told n hn).2 }
      have hmade : ∀ (t : Installer × Host) c, t.1 = ⟨s'.1.requested ++ batch, s'.1.calls + 1⟩ →
          s'.2.Called (batchCall w batch) c t.2 → Asked w s' batch c t := fun t c hi hc =>
        ⟨by rw [hc.momentTree, hc.momentCwd]; exact hb, hi, _, .refl _, hc⟩
      rw [wp_bind, wp_update, wp_bind]
      refine wp_mono _ (wp_runBatch w batch _) ?_ ?_
      · rintro _ t ⟨hi, c, hc, hsucceeds⟩
        exact ⟨hsought, .inr ⟨c, hmade t c hi hc, hc.momentTree, hnamed, hsucceeds⟩⟩
      · rintro f t ⟨hi, hf, c, hc, hfails⟩
        exact ⟨hf, .inr ⟨batch, c, hmade t c hi hc, hnamed, hfails⟩⟩
  · rintro f _ ⟨rfl, hf⟩
    exact ⟨hf, .inl ⟨rfl, .refl _⟩⟩

/-- What comes of an install. -/
theorem wp_install (specifiers : List String) (s : Installer × Host) : wp (install w specifiers)
    (fun batch s' => (batch = [] ∧ Idle s s' ∧ Sought w.cache specifiers s.1 s.2.cwd s.2.tree s'.2.tree []) ∨
      ∃ c, Asked w s batch c s' ∧ Sought w.cache specifiers s.1 s.2.cwd s.2.tree c.moment.tree batch ∧
        Named specifiers batch ∧ c.Succeeds)
    (fun f s' => f.Plain ∧ (Idle s s' ∨
      ∃ batch c, Asked w s batch c s' ∧ Named specifiers batch ∧ ¬c.Succeeds ∧ f = refusal w batch c)) s := by
  unfold install
  rw [wp_bind]
  refine wp_mono _ (wp_pending w specifiers s) ?_ ?_
  · rintro batch s' ⟨rfl, hbatch⟩
    rw [wp_ite]
    split
    · next hempty =>
      obtain rfl : batch = [] := List.isEmpty_iff.1 hempty
      exact .inl ⟨rfl, ⟨rfl, .refl _⟩, fun n hn hself =>
        (hbatch.left n hn n hself).imp_right fun htold => htold.imp_right .inl⟩
    · rw [wp_bind, wp_lift]
      refine wp_mono _ (w.cache.quiet_acquire s'.2) ?_ ?_
      · rintro _ h hh
        have hmade : ∀ {asked c t}, Asked w (s'.1, h) asked c t → Asked w s' asked c t :=
          fun hi => ⟨hi.chosen, hi.installer, hi.called.imp fun _ hc => ⟨hh.trans hc.1, hc.2⟩⟩
        -- a name that was pending at the first look was looked at again
        have hsought : ∀ {asked}, Sought w.cache batch s'.1 h.cwd h.tree h.tree asked →
            Sought w.cache specifiers s'.1 s'.2.cwd s'.2.tree h.tree asked := by
          intro asked hagain n hn hself
          rcases hbatch.left n hn n hself with hpending | htold | htold
          · rw [hh.cwd] at hagain
            rcases hagain n hpending hself with hasked | hreq | hthere | hthere
            · exact .inl hasked
            · exact .inr (.inl hreq)
            · exact .inr (.inr (.inr hthere))
            · exact .inr (.inr (.inr hthere))
          · exact .inr (.inl htold)
          · exact .inr (.inr (.inl htold))
        refine wp_mono _ (wp_installLocked w hbatch.named (s'.1, h)) ?_ ?_
        · rintro asked t ⟨hagain, ⟨rfl, ⟨hi, hh'⟩, htree⟩ | ⟨c, hi, htree, hnamed, hsucceeds⟩⟩
          · exact .inl ⟨rfl, ⟨hi, hh.trans hh'⟩, htree ▸ hsought hagain⟩
          · exact .inr ⟨c, hmade hi, htree ▸ hsought hagain, hnamed, hsucceeds⟩
        · rintro f t ⟨hf, ⟨hi, hh'⟩ | ⟨asked, c, hi, hfails⟩⟩
          · exact ⟨hf, .inl ⟨hi, hh.trans hh'⟩⟩
          · exact ⟨hf, .inr ⟨asked, c, hmade hi, hfails⟩⟩
      · rintro f h ⟨hh, hf⟩
        exact ⟨hf, .inl ⟨rfl, hh⟩⟩
  · rintro f _ ⟨rfl, hf⟩
    exact ⟨hf, .inl ⟨rfl, .refl _⟩⟩

/-- Whatever its outcome, an install called nothing or asked for one batch. -/
theorem install_cases (specifiers : List String) (s : Installer × Host) :
    Idle s ((install w specifiers).run s).2 ∨ ∃ batch c, Asked w s batch c ((install w specifiers).run s).2 := by
  have hwp := wp_install w specifiers s
  unfold wp at hwp
  split at hwp
  · next batch s' hr =>
    rw [hr]
    rcases hwp with ⟨-, hidle, -⟩ | ⟨c, hasked, -⟩
    · exact .inl hidle
    · exact .inr ⟨batch, c, hasked⟩
  · next f s' hr =>
    rw [hr]
    rcases hwp with ⟨-, hidle | ⟨batch, c, hasked, -⟩⟩
    · exact .inl hidle
    · exact .inr ⟨batch, c, hasked⟩

/-! ### All installs of one installer -/

/-- The names in the arguments of a call of the package manager. -/
def batchOf (c : Call) : List String :=
  c.argv.drop ((arguments w []).length + 1)

/-- The books of an installer, with all the calls that were made for it. -/
structure Account (i : Installer) (made : List Call) : Prop where
  kind : ∀ c ∈ made, c.kind = .npm
  argv : ∀ c ∈ made, c.argv = w.toolchain.npm.text :: arguments w (batchOf w c)
  nonempty : ∀ c ∈ made, batchOf w c ≠ []
  nodup : ∀ c ∈ made, (batchOf w c).Nodup
  names : ∀ c ∈ made, ∀ n ∈ batchOf w c, Package.nameOf n = .ok n
  lacking : ∀ c ∈ made, ∀ n ∈ batchOf w c, Lacks w c.moment.tree c.moment.cwd n
  disjoint : made.Pairwise fun c d => (batchOf w c).Disjoint (batchOf w d)
  requested : i.requested = made.flatMap (batchOf w)
  calls : i.calls = made.length

variable {w}

theorem account_new : Account w {} [] :=
  ⟨by simp, by simp, by simp, by simp, by simp, by simp, .nil, rfl, rfl⟩

theorem Asked.argv {s s' : Installer × Host} {batch : List String} {c : Call} (h : Asked w s batch c s') :
    c.argv = w.toolchain.npm.text :: arguments w batch := by
  obtain ⟨_, -, hc⟩ := h.called
  exact hc.argv

theorem Asked.batchOf_eq {s s' : Installer × Host} {batch : List String} {c : Call}
    (h : Asked w s batch c s') : batchOf w c = batch := by
  unfold batchOf
  rw [h.argv]
  rfl

/-- One more batch is one more call in the books. -/
theorem Account.asked {s s' : Installer × Host} {made : List Call} {batch : List String} {c : Call}
    (hi : Account w s.1 made) (h : Asked w s batch c s') : Account w s'.1 (made ++ [c]) := by
  have hbatch := h.batchOf_eq
  obtain ⟨_, -, hc⟩ := h.called
  have hlast : ∀ {P : Call → Prop}, (∀ d ∈ made, P d) → P c → ∀ d ∈ made ++ [c], P d := by
    intro P hmade hlast d hd
    rcases List.mem_append.1 hd with hd | hd
    · exact hmade d hd
    · exact List.mem_singleton.1 hd ▸ hlast
  have hfresh : ∀ d ∈ made, (batchOf w d).Disjoint (batchOf w c) := by
    intro d hd n hn hn'
    refine h.chosen.fresh n (hbatch ▸ hn') ?_
    rw [hi.requested]
    exact List.mem_flatMap.2 ⟨d, hd, hn⟩
  exact
    { kind := hlast hi.kind hc.kind
      argv := hlast hi.argv (by rw [hbatch]; exact hc.argv)
      nonempty := hlast hi.nonempty (by rw [hbatch]; exact h.chosen.nonempty)
      nodup := hlast hi.nodup (by rw [hbatch]; exact h.chosen.nodup)
      names := hlast hi.names (by rw [hbatch]; exact h.chosen.names)
      lacking := hlast hi.lacking (by rw [hbatch]; exact h.chosen.lacking)
      disjoint := by
        refine List.pairwise_append.2 ⟨hi.disjoint, List.pairwise_singleton _ _, fun d hd e he => ?_⟩
        exact List.mem_singleton.1 he ▸ hfresh d hd
      requested := by rw [h.installer, hi.requested]; simp [hbatch]
      calls := by rw [h.installer, hi.calls]; simp }

/-- What is done with an installer, and what others do meanwhile. -/
inductive Errand where
  | install (specifiers : List String)
  | base (styles : Bool)
  /-- Anything may change on the host, at once or while the lock is waited for, but the record of calls. -/
  | others (f : Host → Host)

variable (w)

def Errand.run : Errand → Installer × Host → Installer × Host
  | install specifiers, s => ((Installer.install w specifiers).run s).2
  | base styles, s => ((Installer.installBase w styles).run s).2
  | others f, s => (s.1, { f s.2 with calls := s.2.calls })

/-- One errand after the other; one that fails doesn't keep the next from being tried. -/
def session (errands : List Errand) (s : Installer × Host) : Installer × Host :=
  errands.foldl (fun s e => e.run w s) s

variable {w}

theorem account_of_install {s : Installer × Host} {made : List Call} (hi : Account w s.1 made)
    (specifiers : List String) : ∃ more, ((install w specifiers).run s).2.2.calls = s.2.calls ++ more ∧
      Account w ((install w specifiers).run s).2.1 (made ++ more) := by
  rcases install_cases w specifiers s with ⟨hsame, hh⟩ | ⟨batch, c, h⟩
  · exact ⟨[], by rw [hh.calls, List.append_nil], by rw [hsame, List.append_nil]; exact hi⟩
  · obtain ⟨_, hh, hc⟩ := h.called
    exact ⟨[c], by rw [hc.calls, hh.calls], hi.asked h⟩

theorem account_of_errand {s : Installer × Host} {made : List Call} (hi : Account w s.1 made) :
    ∀ e : Errand, ∃ more, (e.run w s).2.calls = s.2.calls ++ more ∧ Account w (e.run w s).1 (made ++ more)
  | .install specifiers => account_of_install hi specifiers
  | .base styles => account_of_install hi (basePackages styles)
  | .others _ => ⟨[], (List.append_nil _).symm, by rw [List.append_nil]; exact hi⟩

theorem account_of_session : ∀ (errands : List Errand) {s : Installer × Host} {made : List Call},
    Account w s.1 made → ∃ more, (session w errands s).2.calls = s.2.calls ++ more ∧
      Account w (session w errands s).1 (made ++ more)
  | [], s, made, hi => ⟨[], (List.append_nil _).symm, by rw [List.append_nil]; exact hi⟩
  | e :: errands, s, made, hi => by
    obtain ⟨more, hcalls, hi'⟩ := account_of_errand hi e
    obtain ⟨rest, hrest, hi''⟩ := account_of_session errands hi'
    refine ⟨more ++ rest, ?_, ?_⟩
    · show (session w errands (e.run w s)).2.calls = _
      rw [hrest, hcalls, List.append_assoc]
    · rw [← List.append_assoc]
      exact hi''

/-- Whatever is done with an installer, the package manager is only ever asked for names that it isn't asked for
twice, that are their own names and that aren't installed at that moment. The installer remembers all that was
asked for, and nothing else; an install that called nothing hasn't changed it. -/
theorem session_keeps_account (w : Workplace) (errands : List Errand) (h : Host) :
    ∃ made, (session w errands ({}, h)).2.calls = h.calls ++ made ∧
      Account w (session w errands ({}, h)).1 made ∧
      ∀ e : Errand, (e.run w (session w errands ({}, h))).2.calls = (session w errands ({}, h)).2.calls →
        (e.run w (session w errands ({}, h))).1 = (session w errands ({}, h)).1 := by
  obtain ⟨made, hcalls, hi⟩ := account_of_session errands (s := ({}, h)) account_new
  refine ⟨made, hcalls, hi, fun e => ?_⟩
  generalize session w errands ({}, h) = s
  have hinstall : ∀ specifiers, ((install w specifiers).run s).2.2.calls = s.2.calls →
      ((install w specifiers).run s).2.1 = s.1 := by
    intro specifiers hsame
    rcases install_cases w specifiers s with ⟨hidle, -⟩ | ⟨batch, c, hasked⟩
    · exact hidle
    · obtain ⟨_, hh, hc⟩ := hasked.called
      rw [hc.calls, hh.calls] at hsame
      simp at hsame
  cases e with
  | install specifiers => exact hinstall specifiers
  | base styles => exact hinstall (basePackages styles)
  | others f => exact fun _ => rfl

end Installer

end Bundler
