import Bundler.Proofs.Reading
import Bundler.Watch

/-!
# Which changes a watcher sees

Between two polls a watcher knows its memory, and there is a host on which its latest build began (`Reached`).
A build that a poll asks for begins with the stamp that the poll found, so that later changes have another one
and are found again. The first build is different: its stamp is read when it's over. A change that is made while
it runs is remembered without having been built, and stays unseen until the next one (`began_with_found_iff`).
-/

namespace Bundler

theorem Action.reads_stamp? (p : Path) : (stamp? p).Reads := by
  have hchecked : (checked p).Reads := by
    unfold checked
    split
    · exact .throw _
    · exact .pure ()
  refine hchecked.bind fun _ => .get (fun h => ?_) fun _ => rfl
  split
  · exact .pure _
  · exact .pure _
  · exact .pure none
  · exact .pure none
  · exact .throw _

namespace Watch

variable {σ : Type} (o : Options) (around : Surroundings σ) (path : Path)

/-- What a look at the component's stamp finds on a host. -/
def found (h : Host) : Except Failure (Option Stamp) :=
  (Action.stamp? path).seenAt h.tree h.cwd

/-- The state in which a poll looks at the component. -/
def awake (s : σ × Host) : σ × Host :=
  ((around.sleep o.pollInterval).run s).2

/-- The state in which a poll begins a build, with the change told. -/
def noticed (s : σ × Host) : σ × Host :=
  (s.1, { s.2 with log := s.2.log ++ [⟨.info, source, "Change detected in " ++ path.name ++ ", rebuilding"⟩] })

/-- The host on which the latest build began when a poll is over, from the one on which it had begun before. -/
def began (m m' : Memory) (s : σ × Host) (before : Host) : Host :=
  if m'.builds = m.builds then before else (noticed path (awake o around s)).2

/-- A watcher gets to a poll with this memory and in this state, the latest build having begun on the host. -/
inductive Reached : Memory → σ × Host → Host → Prop where
  | start {m : Memory} {s s' : σ × Host} (h : (start around path).run s = (.ok m, s')) : Reached m s' s.2
  | poll {m m' : Memory} {s s' : σ × Host} {before : Host} (hm : Reached m s before) (hgo : goesOn o m = true)
    (h : (poll o around path m).run s = (.ok m', s')) : Reached m' s' (began o around path m m' s before)

/-- The first build is the latest one, and what it's remembered for isn't what it began with. -/
def Overlooks (m : Memory) (before : Host) : Prop :=
  m.builds = 1 ∧ found path before ≠ .ok m.stamp

/-- All that a poll can decide. -/
theorem step_cases {m : Memory} {seen : Option Stamp} {now : Number} {r : Option Memory}
    (h : step o m seen now = .ok r) :
    (r = none ∧ (seen = none ∨ seen = m.stamp ∨ shouldRebuild m.builtAt o.debounce now = .ok false)) ∨
    (r = some ⟨m.builds + 1, seen, now⟩ ∧ seen ≠ none ∧ seen ≠ m.stamp ∧
      shouldRebuild m.builtAt o.debounce now = .ok true) := by
  unfold step at h
  split at h
  · next hseen =>
    rw [Bool.or_eq_true, Option.isNone_iff_eq_none, beq_iff_eq] at hseen
    cases h
    exact .inl ⟨rfl, hseen.imp_right .inl⟩
  · next hseen =>
    rw [Bool.or_eq_true, Option.isNone_iff_eq_none, beq_iff_eq, not_or] at hseen
    cases hdue : shouldRebuild m.builtAt o.debounce now with
    | error f => rw [hdue] at h; cases h
    | ok due =>
      rw [hdue] at h
      cases due with
      | true => cases h; exact .inr ⟨rfl, hseen.1, hseen.2, rfl⟩
      | false => cases h; exact .inl ⟨rfl, .inr (.inr rfl)⟩

variable {o around path}

theorem wp_sleep (s : σ × Host) :
    wp (around.sleep o.pollInterval) (fun _ t => t = awake o around s) (fun _ _ => True) s := by
  unfold wp awake
  split
  · next ht => rw [ht]
  · trivial

theorem wp_stamp {Q : Option Stamp → σ × Host → Prop} {E : Failure → σ × Host → Prop} (s : σ × Host) :
    wp (Action.stamp? path : ActionWith σ (Option Stamp)) Q E s = match found path s.2 with
      | .ok seen => Q seen s
      | .error f => E f s := by
  rw [wp_lift, (Action.reads_stamp? path).wp_eq]
  unfold found
  cases (Action.stamp? path).seenAt s.2.tree s.2.cwd <;> rfl

/-- A poll that comes to an end has decided on what it found on waking, remembers what it decided, and has made
the build that it decided on. -/
theorem poll_cases {m m' : Memory} {s s' : σ × Host} (h : (poll o around path m).run s = (.ok m', s')) :
    ∃ seen r, found path (awake o around s).2 = .ok seen ∧
      step o m seen (around.clock (awake o around s).1 (awake o around s).2) = .ok r ∧ m' = r.getD m ∧
      (r ≠ none → (rebuild around path).run (noticed path (awake o around s)) = (.ok (), s')) := by
  have hwp : wp (poll o around path m) (fun m' s' => ∃ seen r, found path (awake o around s).2 = .ok seen ∧
      step o m seen (around.clock (awake o around s).1 (awake o around s).2) = .ok r ∧ m' = r.getD m ∧
      (r ≠ none → (rebuild around path).run (noticed path (awake o around s)) = (.ok (), s')))
      (fun _ _ => True) s := by
    unfold poll
    rw [wp_bind]
    refine wp_mono _ (wp_sleep s) (fun _ t ht => ?_) fun _ _ _ => trivial
    rw [wp_bind, wp_stamp, ← ht]
    cases hseen : found path t.2 with
    | error f => trivial
    | ok seen =>
      show wp (do
        let r ← MonadExcept.ofExcept (step o m seen (around.clock t.1 t.2))
        _) _ _ t
      rw [wp_bind, wp_ofExcept]
      cases hr : step o m seen (around.clock t.1 t.2) with
      | error f => trivial
      | ok r =>
        cases r with
        | none => exact ⟨seen, none, rfl, hr, rfl, nofun⟩
        | some m' =>
          show wp (_ >>= fun _ => rebuild around path >>= fun _ => pure m') _ _ t
          rw [wp_bind, wp_lift, wp_write, wp_bind]
          exact wp_iff.2 ⟨fun _ _ hbuild => ⟨seen, some m', rfl, hr, rfl, fun _ => hbuild⟩, fun _ _ _ => trivial⟩
  exact (wp_iff.1 hwp).1 m' s' h

/-- The stamp that is remembered for the first build is the one that is there when it's over. -/
theorem start_cases {m : Memory} {s s' : σ × Host} (h : (start around path).run s = (.ok m, s')) :
    m.builds = 1 ∧ found path s'.2 = .ok m.stamp := by
  have hwp : wp (start around path) (fun m t => m.builds = 1 ∧ found path t.2 = .ok m.stamp)
      (fun _ _ => True) s := by
    unfold start
    rw [wp_bind]
    refine wp_of_forall _ (fun _ t => ?_) fun _ _ => trivial
    rw [wp_bind, wp_stamp]
    cases hseen : found path t.2 with
    | error f => trivial
    | ok seen => exact ⟨rfl, hseen⟩
  exact (wp_iff.1 hwp).1 m s' h

theorem began_none {m : Memory} {s : σ × Host} {before : Host} : began o around path m m s before = before :=
  if_pos rfl

theorem began_build {m : Memory} {seen : Option Stamp} {now : Number} {s : σ × Host} {before : Host} :
    began o around path m ⟨m.builds + 1, seen, now⟩ s before = (noticed path (awake o around s)).2 :=
  if_neg (Nat.succ_ne_self m.builds)

/-- A build is made in the poll after which it is the latest, on the host on which it is said to begin. -/
theorem rebuild_run {m m' : Memory} {s s' : σ × Host} (h : (poll o around path m).run s = (.ok m', s'))
    (hnew : m'.builds ≠ m.builds) : (rebuild around path).run (noticed path (awake o around s)) = (.ok (), s') := by
  obtain ⟨seen, r, -, -, rfl, hbuild⟩ := poll_cases h
  refine hbuild fun hnone => hnew ?_
  rw [hnone, Option.getD_none]

namespace Reached

variable {m m' : Memory} {s s' : σ × Host} {before : Host}

/-- A build that a poll asked for began with the stamp that is remembered for it. -/
theorem found_before (hm : Reached o around path m s before) :
    m.builds = 1 ∨ found path before = .ok m.stamp := by
  induction hm with
  | start h => exact .inl (start_cases h).1
  | @poll m m' s s' before _ _ h ih =>
    obtain ⟨seen, r, hseen, hr, rfl, -⟩ := poll_cases h
    obtain ⟨rfl, -⟩ | ⟨rfl, -⟩ := step_cases o hr
    · rw [Option.getD_none, began_none]
      exact ih
    · rw [Option.getD_some, began_build]
      exact .inr hseen

theorem overlooks_iff (hm : Reached o around path m s before) :
    Overlooks path m before ↔ found path before ≠ .ok m.stamp :=
  ⟨fun h => h.2, fun h => ⟨hm.found_before.resolve_right h, h⟩⟩

/-- Some number of polls after the first build, a watcher goes on from here. -/
theorem exists_loop_eq (hm : Reached o around path m s before) : ∃ m₀ s₀ s₁ polls,
    (Watch.start around path).run s₀ = (.ok m₀, s₁) ∧
      ∀ fuel, (loop o around path (fuel + polls) m₀).run s₁ = (loop o around path fuel m).run s := by
  induction hm with
  | start h => exact ⟨_, _, _, 0, h, fun _ => rfl⟩
  | @poll m m' s s' _ _ hgo h ih =>
    obtain ⟨m₀, s₀, s₁, polls, hstart, heq⟩ := ih
    refine ⟨m₀, s₀, s₁, polls + 1, hstart, fun fuel => ?_⟩
    calc (loop o around path (fuel + (polls + 1)) m₀).run s₁
        = (loop o around path (fuel + 1 + polls) m₀).run s₁ := by rw [Nat.add_right_comm, Nat.add_assoc]
      _ = (loop o around path (fuel + 1) m).run s := heq (fuel + 1)
      _ = (Watch.poll o around path m >>= fun m' => loop o around path fuel m').run s := by
          rw [loop, hgo]
          rfl
      _ = (loop o around path fuel m').run s' := run_bind_of_ok h

/-- The number of builds that the polls give back is the one that is remembered in the end. -/
theorem wp_loop (hm : Reached o around path m s before) (fuel : Nat) :
    wp (loop o around path fuel m) (fun n t => ∃ m' before', Reached o around path m' t before' ∧
      goesOn o m' = false ∧ n = m'.builds) (fun _ _ => True) s := by
  induction fuel generalizing m s before with
  | zero => trivial
  | succ fuel ih =>
    unfold loop
    cases hgo : goesOn o m with
    | false => exact ⟨m, before, hm, hgo, rfl⟩
    | true =>
      show wp (Watch.poll o around path m >>= fun m' => loop o around path fuel m') _ _ s
      rw [wp_bind]
      exact wp_iff.2 ⟨fun m' t h => ih (hm.poll hgo h), fun _ _ _ => trivial⟩

end Reached

/-- A watcher that comes to an end gives back the number of its builds, and no more of them are wanted. -/
theorem wp_watch (entry : Path) (build : Path → ActionWith σ BuildResult) (emit : Json → ActionWith σ Unit)
    (s : σ × Host) : wp (watch o entry build emit) (fun n t => ∃ path m before,
      Reached o (onHost build emit) path m t before ∧ goesOn o m = false ∧ n = m.builds) (fun _ _ => True) s := by
  unfold watch
  rw [wp_bind]
  refine wp_of_forall _ (fun entry t => ?_) fun _ _ => trivial
  rw [wp_bind]
  refine wp_of_forall _ (fun path t => ?_) fun _ _ => trivial
  rw [wp_bind]
  refine wp_iff.2 ⟨fun m t' h => ?_, fun _ _ _ => trivial⟩
  show wp (loop o (onHost build emit) path _ m) _ _ t'
  exact wp_mono _ ((Reached.start h).wp_loop _) (fun n t ⟨m', before, hm⟩ => ⟨path, m', before, hm⟩)
    fun _ _ _ => trivial

/-- After a poll that finds a stamp, and comes late enough, the latest build began with that stamp. The only
exception is a stamp that the component got during the first build. -/
theorem began_with_found_iff {m m' : Memory} {s s' : σ × Host} {before : Host} {st : Stamp}
    (hm : Reached o around path m s before) (h : (poll o around path m).run s = (.ok m', s'))
    (hseen : found path (awake o around s).2 = .ok (some st))
    (hdue : shouldRebuild m.builtAt o.debounce (around.clock (awake o around s).1 (awake o around s).2) = .ok true) :
    found path (began o around path m m' s before) = .ok (some st) ↔
      ¬ (Overlooks path m before ∧ m.stamp = some st) := by
  obtain ⟨seen, r, hseen', hr, rfl, -⟩ := poll_cases h
  cases hseen.symm.trans hseen'
  obtain ⟨rfl, hcase⟩ | ⟨rfl, -, hnew, -⟩ := step_cases o hr
  · rw [Option.getD_none, began_none]
    -- the build isn't asked for because the stamp is the one that is remembered
    have hst : m.stamp = some st := by
      rcases hcase with hcase | hcase | hcase
      · cases hcase
      · exact hcase.symm
      · rw [hcase] at hdue; cases hdue
    rw [hm.overlooks_iff, hst, Ne, and_iff_left rfl, Classical.not_not]
  · rw [Option.getD_some, began_build]
    exact iff_of_true hseen fun ho => hnew ho.2.symm

section Saving

/-- Surroundings in which others do something during every build and during every sleep, and only sleeps take
time. -/
def among (building sleeping : Action Unit) : Surroundings Nat where
  build _ := do
    building
    return .success "" true
  emit _ := return
  sleep _ := do
    sleeping
    ActionWith.update (· + 1)
  clock n _ := .int n

def component : Path := ⟨.one, ["a.tsx"]⟩

/-- The component is saved at some time. -/
def save (ns : Int) : Action Unit :=
  Action.change component fun t cwd => t.touch cwd component ns

def unbuilt : Nat × Host where
  fst := 0
  snd.tree.entries := [(["a.tsx"], .file "" false (.at 1000))]

/-- The state after the first build. -/
def builtOnce (around : Surroundings Nat) : Nat × Host :=
  ((start around component).run unbuilt).2

def eager : Options where
  debounce := .int 0

theorem shouldRebuild_eager : shouldRebuild (.int 0) eager.debounce (.int 1) = .ok true := by rfl

/-- What is saved during a sleep is built. -/
theorem save_asleep_built :
    found component (began eager (among (return) (save 2000)) component ⟨1, some (.at 1000), .int 0⟩
      ⟨2, some (.at 2000), .int 1⟩ (builtOnce (among (return) (save 2000))) unbuilt.2) = .ok (some (.at 2000)) := by
  have hstart : Reached eager (among (return) (save 2000)) component ⟨1, some (.at 1000), .int 0⟩
      (builtOnce (among (return) (save 2000))) unbuilt.2 :=
    .start (s := unbuilt) rfl
  have hpoll : ((poll eager (among (return) (save 2000)) component ⟨1, some (.at 1000), .int 0⟩).run
      (builtOnce (among (return) (save 2000)))).1 = .ok ⟨2, some (.at 2000), .int 1⟩ := by rfl
  exact (began_with_found_iff hstart (Prod.ext hpoll rfl) rfl shouldRebuild_eager).2 fun ho => nomatch ho.2

/-- What is saved during the first build isn't built. -/
theorem save_in_first_build_overlooked :
    ∃ (around : Surroundings Nat) (m m' : Memory) (s s' : Nat × Host) (before : Host) (st : Stamp),
      Reached eager around component m s before ∧ (poll eager around component m).run s = (.ok m', s') ∧
      found component (awake eager around s).2 = .ok (some st) ∧
      shouldRebuild m.builtAt eager.debounce (around.clock (awake eager around s).1 (awake eager around s).2) =
        .ok true ∧
      found component (began eager around component m m' s before) ≠ .ok (some st) := by
  let around := among (save 2000) (return)
  have hstart : Reached eager around component ⟨1, some (.at 2000), .int 0⟩ (builtOnce around) unbuilt.2 :=
    .start (s := unbuilt) rfl
  have hpoll : (poll eager around component ⟨1, some (.at 2000), .int 0⟩).run (builtOnce around) =
    (.ok ⟨1, some (.at 2000), .int 0⟩, awake eager around (builtOnce around)) := rfl
  have hbegan : found component unbuilt.2 = .ok (some (.at 1000)) := rfl
  refine ⟨around, _, _, _, _, unbuilt.2, .at 2000, hstart, hpoll, rfl, shouldRebuild_eager, ?_⟩
  rw [began_none, hbegan]
  exact fun h => nomatch h

end Saving

end Watch

end Bundler
