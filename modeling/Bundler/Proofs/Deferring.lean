import Mathlib.Data.List.ModifyLast
import Bundler.Proofs.Watching

/-!
# When a watcher rebuilds

A watcher's run is told in a `Diary`: what each poll looked at (`Look`), and what was done after it (`Deed`). The
diary is kept beside the run by surroundings that write down what they do (`Surroundings.noted`) and is otherwise
left alone, so that the run with a diary is the run without it (`Forgets`). One poll adds one turn to the diary,
which rebuilds or not by what the latest rebuild before it had looked at (`Regular`, `wp_poll_noted`). All that can
be said of polls that are put off, of files that are missing and of two rebuilds in a row is about lists of such
turns (`Timely`).
-/

namespace Bundler.Watch

/-- What a poll finds of the component, and at what time. -/
structure Look where
  seen : Option Stamp
  now : Number

def Memory.look (m : Memory) : Look :=
  ⟨m.stamp, m.builtAt⟩

/-- What a watcher does for a build: it calls it, has its result, and calls for the event to be told. -/
inductive Deed where
  | began
  | built (r : BuildResult)
  | told (event : Json)

/-- All that is done for a build with a result. -/
def Deed.all (r : BuildResult) : List Deed :=
  [.began, .built r, .told r.event]

/-- A poll, and what is done before the next one. -/
structure Turn where
  look : Look
  deeds : List Deed

def Turn.rebuilds (t : Turn) : Bool :=
  !t.deeds.isEmpty

structure Diary where
  /-- What is done before the first poll. -/
  opening : List Deed := []
  turns : List Turn := []

namespace Diary

variable (y : Diary)

def wake (l : Look) : Diary :=
  { y with turns := y.turns ++ [⟨l, []⟩] }

/-- Adds to the latest turn. -/
def add (d : Deed) : Diary :=
  if y.turns.isEmpty then { y with opening := y.opening ++ [d] }
  else { y with turns := y.turns.modifyLast fun t => { t with deeds := t.deeds ++ [d] } }

def deeds : List Deed :=
  y.opening ++ y.turns.flatMap Turn.deeds

theorem add_of_nil (opening : List Deed) (d : Deed) : add ⟨opening, []⟩ d = ⟨opening ++ [d], []⟩ := rfl

theorem add_of_concat (opening : List Deed) (turns : List Turn) (l : Look) (ds : List Deed) (d : Deed) :
    add ⟨opening, turns ++ [⟨l, ds⟩]⟩ d = ⟨opening, turns ++ [⟨l, ds ++ [d]⟩]⟩ := by
  unfold add
  rw [if_neg (by simp), List.modifyLast_concat]

theorem deeds_of_concat (opening : List Deed) (turns : List Turn) (t : Turn) :
    deeds ⟨opening, turns ++ [t]⟩ = deeds ⟨opening, turns⟩ ++ t.deeds := by
  simp [deeds]

end Diary

/-! ### Turns -/

section Turns

variable (o : Options) (first : Look)

/-- What the latest rebuild looked at, or what was there to look at when the first build was over. -/
def latest (turns : List Turn) : Look :=
  ((turns.filter Turn.rebuilds).map Turn.look).getLastD first

/-- A poll has to rebuild: the file is there, with another time than before, and not too early. -/
structure Due (last l : Look) : Prop where
  present : l.seen ≠ none
  differs : l.seen ≠ last.seen
  elapsed : shouldRebuild last.now o.debounce l.now = .ok true

/-- Every turn rebuilds if it has to. -/
def Regular (turns : List Turn) : Prop :=
  ∀ before t after, turns = before ++ t :: after → (t.rebuilds = true ↔ Due o (latest first before) t.look)

/-- What there is to say of the turns of a run. -/
structure Timely (turns : List Turn) : Prop where
  rebuilds_iff : ∀ before t after, turns = before ++ t :: after →
    (t.rebuilds = true ↔ Due o (latest first before) t.look)
  /-- A poll that finds no file does nothing, and nothing later depends on it. -/
  missing : ∀ before t after, turns = before ++ t :: after → t.look.seen = none →
    t.deeds = [] ∧ ∀ rest, latest first (before ++ t :: rest) = latest first (before ++ rest)
  /-- A change that comes too early is built by the first of the later polls that has to rebuild. -/
  deferred : ∀ before t middle u after, turns = before ++ t :: (middle ++ u :: after) → t.look.seen ≠ none →
    t.look.seen ≠ (latest first before).seen →
    shouldRebuild (latest first before).now o.debounce t.look.now = .ok false →
    (∀ v ∈ middle, ¬ Due o (latest first before) v.look) →
    t.deeds = [] ∧ (∀ v ∈ middle, v.deeds = []) ∧ (u.rebuilds = true ↔ Due o (latest first before) u.look)
  /-- Two rebuilds in a row look at different times of the file, and the debounce is between them. -/
  spaced : ∀ before t middle u after, turns = before ++ t :: (middle ++ u :: after) → t.rebuilds = true →
    (∀ v ∈ middle, v.deeds = []) → u.rebuilds = true →
    shouldRebuild t.look.now o.debounce u.look.now = .ok true ∧ t.look.seen ≠ u.look.seen

variable {o first} {turns : List Turn} {t : Turn}

theorem Turn.rebuilds_eq_false : t.rebuilds = false ↔ t.deeds = [] := by
  simp [rebuilds]

theorem Turn.rebuilds_eq_true : t.rebuilds = true ↔ t.deeds ≠ [] := by
  simp [rebuilds]

theorem latest_concat_of_rebuilds (h : t.rebuilds = true) : latest first (turns ++ [t]) = t.look := by
  simp [latest, h]

theorem latest_append_idle {idle : List Turn} (h : ∀ t ∈ idle, t.deeds = []) :
    latest first (turns ++ idle) = latest first turns := by
  have hnone : idle.filter Turn.rebuilds = [] := by
    rw [List.filter_eq_nil_iff]
    intro t ht
    rw [Turn.rebuilds_eq_false.2 (h t ht)]
    exact Bool.false_ne_true
  rw [latest, List.filter_append, hnone, List.append_nil, ← latest]

theorem latest_concat_idle (h : t.deeds = []) : latest first (turns ++ [t]) = latest first turns :=
  latest_append_idle (by simpa using h)

theorem latest_append_cons_idle {rest : List Turn} (h : t.deeds = []) :
    latest first (turns ++ t :: rest) = latest first (turns ++ rest) := by
  have hskip : (t :: rest).filter Turn.rebuilds = rest.filter Turn.rebuilds :=
    List.filter_cons_of_neg (by rw [Turn.rebuilds_eq_false.2 h]; exact Bool.false_ne_true)
  rw [latest, latest, List.filter_append, List.filter_append, hskip]

theorem regular_nil : Regular o first [] := fun before t after h => by
  simp at h

/-- One more turn has to be right with the ones before it. -/
theorem Regular.concat (hreg : Regular o first turns) (ht : t.rebuilds = true ↔ Due o (latest first turns) t.look) :
    Regular o first (turns ++ [t]) := by
  intro before u after h
  rcases List.eq_nil_or_concat after with rfl | ⟨after, v, rfl⟩
  · obtain ⟨rfl, hu⟩ := List.append_inj' h rfl
    cases hu
    exact ht
  -- what comes before an older turn is the same with one more turn at the end
  · rw [List.concat_eq_append, ← List.cons_append, ← List.append_assoc] at h
    exact hreg before u after (List.append_inj' h rfl).1

namespace Regular

variable (hreg : Regular o first turns) {before middle after : List Turn} {u : Turn}

include hreg

theorem deeds_eq_nil (h : turns = before ++ t :: after) (hidle : ¬ Due o (latest first before) t.look) :
    t.deeds = [] := by
  by_contra hne
  exact hidle ((hreg before t after h).1 (Turn.rebuilds_eq_true.2 hne))

/-- As long as no poll has to rebuild, what the latest rebuild looked at stays. -/
theorem idle (hmiddle : ∀ v ∈ middle, ¬ Due o (latest first before) v.look) :
    turns = before ++ (middle ++ after) → ∀ v ∈ middle, v.deeds = [] := by
  induction middle generalizing before with
  | nil => exact fun _ v hv => nomatch hv
  | cons w middle ih =>
    intro h
    have hw : w.deeds = [] := hreg.deeds_eq_nil h (hmiddle w (List.mem_cons_self ..))
    have hrest : ∀ v ∈ middle, v.deeds = [] := by
      have h' : turns = (before ++ [w]) ++ (middle ++ after) := by simpa using h
      refine ih (fun v hv => ?_) h'
      rw [latest_concat_idle hw]
      exact hmiddle v (List.mem_cons_of_mem w hv)
    intro v hv
    rcases List.mem_cons.1 hv with rfl | hv
    · exact hw
    · exact hrest v hv

theorem timely : Timely o first turns where
  rebuilds_iff := hreg
  missing before t after h hnone := by
    have ht : t.deeds = [] := hreg.deeds_eq_nil h fun hdue => hdue.present hnone
    exact ⟨ht, fun rest => latest_append_cons_idle ht⟩
  deferred before t middle u after h _ _ hearly hmiddle := by
    have ht : t.deeds = [] := hreg.deeds_eq_nil h fun hdue => by
      rw [hdue.elapsed] at hearly
      cases hearly
    have hlatest : latest first (before ++ [t]) = latest first before := latest_concat_idle ht
    have h' : turns = (before ++ [t]) ++ (middle ++ u :: after) := by simpa using h
    have hidle : ∀ v ∈ middle, v.deeds = [] := hreg.idle (by rwa [hlatest]) h'
    refine ⟨ht, hidle, ?_⟩
    have hu := hreg (before ++ [t] ++ middle) u after (by simpa using h)
    rwa [latest_append_idle hidle, hlatest] at hu
  spaced before t middle u after h ht hidle hu := by
    have hdue := (hreg (before ++ [t] ++ middle) u after (by simpa using h)).1 hu
    rw [latest_append_idle hidle, latest_concat_of_rebuilds ht] at hdue
    exact ⟨hdue.elapsed, hdue.differs.symm⟩

end Regular

end Turns

/-- A poll decides on a build exactly if it has to. -/
theorem due_iff_of_step {o : Options} {m : Memory} {l : Look} {r : Option Memory}
    (h : step o m l.seen l.now = .ok r) : r ≠ none ↔ Due o m.look l := by
  obtain ⟨rfl, hcase⟩ | ⟨rfl, hpresent, hdiffers, helapsed⟩ := step_cases o h
  · refine iff_of_false (fun hr => hr rfl) fun hdue => ?_
    rcases hcase with hnone | hsame | hearly
    · exact hdue.present hnone
    · exact hdue.differs hsame
    · rw [show shouldRebuild m.builtAt o.debounce l.now = .ok true from hdue.elapsed] at hearly
      cases hearly
  · exact iff_of_true nofun ⟨hpresent, hdiffers, helapsed⟩

/-- A poll that fails to decide didn't have to rebuild. -/
theorem not_due_of_step_error {o : Options} {m : Memory} {l : Look} {f : Failure}
    (h : step o m l.seen l.now = .error f) : ¬ Due o m.look l := by
  intro hdue
  have hrebuild : shouldRebuild m.builtAt o.debounce l.now = .ok true := hdue.elapsed
  unfold step at h
  split at h
  · cases h
  · rw [hrebuild] at h
    cases h

/-! ### Keeping a diary -/

variable {σ α β : Type}

/-- The step with a diary that it leaves alone. -/
def beside (a : ActionWith σ α) : ActionWith (Diary × σ) α :=
  ExceptT.mk fun s =>
    let (r, t) := a.run (s.1.2, s.2)
    (r, ((s.1.1, t.1), t.2))

def jot (f : σ → Host → Diary → Diary) : ActionWith (Diary × σ) Unit :=
  ExceptT.mk fun s => (.ok (), ((f s.1.2 s.2 s.1.1, s.1.2), s.2))

/-- The step, and what is written down when it's over. -/
def jotted (a : ActionWith σ α) (f : α → σ → Host → Diary → Diary) : ActionWith (Diary × σ) α := do
  let r ← beside a
  jot (f r)
  return r

/-- What a watcher of a path is told by a look on waking; where the look fails there is no turn. -/
def Diary.look (y : Diary) (path : Path) (now : Number) (h : Host) : Diary :=
  match found path h with
  | .ok seen => y.wake ⟨seen, now⟩
  | .error _ => y

/-- The same surroundings with everything written down. -/
def Surroundings.noted (around : Surroundings σ) (path : Path) : Surroundings (Diary × σ) where
  build p := do
    jot fun _ _ y => y.add .began
    jotted (around.build p) fun r _ _ y => y.add (.built r)
  emit event := do
    jot fun _ _ y => y.add (.told event)
    beside (around.emit event)
  sleep seconds := jotted (around.sleep seconds) fun _ x h y => y.look path (around.clock x h) h
  clock s h := around.clock s.2 h

section Rules

variable {Q : α → (Diary × σ) × Host → Prop} {E : Failure → (Diary × σ) × Host → Prop} {s : (Diary × σ) × Host}

theorem wp_beside (a : ActionWith σ α) : wp (beside a) Q E s =
    wp a (fun x t => Q x ((s.1.1, t.1), t.2)) (fun f t => E f ((s.1.1, t.1), t.2)) (s.1.2, s.2) := by
  have hrun : (beside a).run s = ((a.run (s.1.2, s.2)).1,
      ((s.1.1, (a.run (s.1.2, s.2)).2.1), (a.run (s.1.2, s.2)).2.2)) := rfl
  unfold wp
  rw [hrun]
  rcases a.run (s.1.2, s.2) with ⟨_ | _, _, _⟩ <;> rfl

theorem wp_jotted (a : ActionWith σ α) (f : α → σ → Host → Diary → Diary) : wp (jotted a f) Q E s =
    wp a (fun x t => Q x ((f x t.1 t.2 s.1.1, t.1), t.2)) (fun e t => E e ((s.1.1, t.1), t.2)) (s.1.2, s.2) := by
  rw [jotted, wp_bind, wp_beside]
  rfl

theorem wp_jot {Q : Unit → (Diary × σ) × Host → Prop} (f : σ → Host → Diary → Diary) :
    wp (jot f) Q E s = Q () ((f s.1.2 s.2 s.1.1, s.1.2), s.2) := rfl

end Rules

/-! ### The run with a diary is the run -/

/-- The state without the diary. -/
def plain (s : (Diary × σ) × Host) : σ × Host :=
  (s.1.2, s.2)

/-- The step is the other one with a diary. -/
def Forgets (b : ActionWith (Diary × σ) α) (a : ActionWith σ α) : Prop :=
  ∀ s, ((b.run s).1, plain (b.run s).2) = a.run (plain s)

namespace Forgets

theorem pure (x : α) : Forgets (pure x : ActionWith (Diary × σ) α) (pure x) := fun _ => rfl

theorem throw (f : Failure) : Forgets (throw f : ActionWith (Diary × σ) α) (throw f) := fun _ => rfl

theorem lift (a : Action α) : Forgets (liftM a : ActionWith (Diary × σ) α) (liftM a) := fun _ => rfl

theorem ofExcept (r : Except Failure α) :
    Forgets (MonadExcept.ofExcept r : ActionWith (Diary × σ) α) (MonadExcept.ofExcept r) := fun _ => by
  cases r <;> rfl

theorem beside (a : ActionWith σ α) : Forgets (beside a) a := fun _ => rfl

theorem bind {b : ActionWith (Diary × σ) α} {a : ActionWith σ α} {g : α → ActionWith (Diary × σ) β}
    {f : α → ActionWith σ β} (ha : Forgets b a) (hf : ∀ x, Forgets (g x) (f x)) : Forgets (b >>= g) (a >>= f) := by
  intro s
  rw [run_bind, run_bind, ← ha s]
  rcases (b.run s).1 with e | x
  · rfl
  · exact hf x _

/-- What is written down first doesn't count. -/
theorem jot_bind {b : ActionWith (Diary × σ) α} {a : ActionWith σ α} (f : σ → Host → Diary → Diary)
    (ha : Forgets b a) : Forgets (jot f >>= fun _ => b) a := fun s => ha ((f s.1.2 s.2 s.1.1, s.1.2), s.2)

/-- Nor does what is written down in the end. -/
theorem jotted (a : ActionWith σ α) (f : α → σ → Host → Diary → Diary) : Forgets (jotted a f) a := by
  intro s
  rw [Watch.jotted, run_bind, ← Forgets.beside a s]
  rcases ((Watch.beside a).run s).1 with e | x <;> rfl

end Forgets

section Around

variable (o : Options) (around : Surroundings σ) (path : Path)

theorem forgets_rebuild : Forgets (rebuild (around.noted path) path) (rebuild around path) :=
  .bind (.jot_bind _ (.jotted _ _)) fun _ => .jot_bind _ (.beside _)

theorem forgets_now : Forgets (around.noted path).now around.now := fun _ => rfl

theorem forgets_start : Forgets (start (around.noted path) path) (start around path) :=
  .bind (forgets_rebuild around path) fun _ => .bind (.lift _) fun _ => .bind (forgets_now around path) fun _ => .pure _

theorem forgets_poll (m : Memory) : Forgets (poll o (around.noted path) path m) (poll o around path m) := by
  refine .bind (.jotted _ _) fun _ => .bind (.lift _) fun seen =>
    .bind (forgets_now around path) fun now => .bind (.ofExcept _) fun r => ?_
  cases r with
  | none => exact .pure m
  | some m' => exact .bind (.lift _) fun _ => .bind (forgets_rebuild around path) fun _ => .pure m'

theorem forgets_loop (fuel : Nat) (m : Memory) :
    Forgets (loop o (around.noted path) path fuel m) (loop o around path fuel m) := by
  induction fuel generalizing m with
  | zero => exact .throw _
  | succ fuel ih =>
    unfold loop
    cases goesOn o m with
    | false => exact .pure m.builds
    | true => exact .bind (forgets_poll o around path m) fun m' => ih m'

end Around

/-! ### What a poll writes -/

/-- A diary of a run that may have failed. -/
structure Sound (o : Options) (first : Look) (y : Diary) : Prop where
  regular : Regular o first y.turns
  /-- There is at most one build for a poll. -/
  single : ∀ t ∈ y.turns, ∃ r, t.deeds <+: Deed.all r
  ordered : ∃ results : List BuildResult, y.deeds <+: results.flatMap Deed.all

/-- A diary of a run that has got to a memory. -/
structure Fits (o : Options) (first : Look) (m : Memory) (y : Diary) : Prop where
  regular : Regular o first y.turns
  single : ∀ t ∈ y.turns, ∃ r, t.deeds <+: Deed.all r
  remembered : latest first y.turns = m.look
  complete : ∃ results : List BuildResult, y.deeds = results.flatMap Deed.all ∧ results.length = m.builds

variable {o : Options} {around : Surroundings σ} {path : Path} {first : Look} {m : Memory}

theorem Fits.sound {y : Diary} (hy : Fits o first m y) : Sound o first y :=
  have ⟨results, hdeeds, _⟩ := hy.complete
  ⟨hy.regular, hy.single, results, hdeeds ▸ List.prefix_rfl⟩

/-- What a build adds to the diary, if it is finished and if it isn't. -/
theorem wp_rebuild_noted (put : List Deed → Diary) (hput : ∀ ds d, (put ds).add d = put (ds ++ [d]))
    {s : (Diary × σ) × Host} (hs : s.1.1 = put []) : wp (rebuild (around.noted path) path)
      (fun _ t => ∃ r, t.1.1 = put (Deed.all r))
      (fun _ t => ∃ r ds, ds ≠ [] ∧ ds <+: Deed.all r ∧ t.1.1 = put ds) s := by
  have hbegan : s.1.1.add .began = put [.began] := by rw [hs, hput, List.nil_append]
  unfold rebuild
  rw [wp_bind]
  show wp (jot _ >>= fun _ => jotted (around.build path) _) _ _ s
  rw [wp_bind, wp_jot, wp_jotted]
  refine wp_of_forall _ (fun r t => ?_) fun _ t => ?_
  · show wp (jot _ >>= fun _ => beside (around.emit r.event)) _ _ ((_, t.1), t.2)
    have htold : ((s.1.1.add .began).add (.built r)).add (.told r.event) = put (Deed.all r) := by
      rw [hbegan, hput, hput]
      rfl
    rw [wp_bind, wp_jot, wp_beside]
    exact wp_of_forall _ (fun _ _ => ⟨r, htold⟩)
      fun _ _ => ⟨r, _, List.cons_ne_nil _ _, List.prefix_rfl, htold⟩
  · exact ⟨.success "" true, _, List.cons_ne_nil _ _, ⟨_, rfl⟩, hbegan⟩

/-- One more turn, with the build that it asks for. -/
theorem Fits.concat {y : Diary} (hy : Fits o first m y) {l : Look} {r : BuildResult} (hdue : Due o m.look l) :
    Fits o first ⟨m.builds + 1, l.seen, l.now⟩ { y with turns := y.turns ++ [⟨l, Deed.all r⟩] } where
  regular := hy.regular.concat (by rw [hy.remembered]; exact iff_of_true rfl hdue)
  single := List.forall_mem_append.2 ⟨hy.single, List.forall_mem_singleton.2 ⟨r, List.prefix_rfl⟩⟩
  remembered := latest_concat_of_rebuilds rfl
  complete := by
    obtain ⟨results, hdeeds, hlen⟩ := hy.complete
    refine ⟨results ++ [r], ?_, by rw [List.length_append, hlen]; rfl⟩
    rw [Diary.deeds_of_concat, hdeeds, List.flatMap_append, List.flatMap_singleton]

/-- One more turn, in which nothing is done. -/
theorem Fits.wake {y : Diary} (hy : Fits o first m y) {l : Look} (hidle : ¬ Due o m.look l) :
    Fits o first m (y.wake l) where
  regular := hy.regular.concat (by rw [hy.remembered]; exact iff_of_false Bool.false_ne_true hidle)
  single := List.forall_mem_append.2 ⟨hy.single, List.forall_mem_singleton.2 ⟨.success "" true, List.nil_prefix⟩⟩
  remembered := (latest_concat_idle rfl).trans hy.remembered
  complete := by
    obtain ⟨results, hdeeds, hlen⟩ := hy.complete
    refine ⟨results, ?_, hlen⟩
    rw [Diary.wake, Diary.deeds_of_concat, List.append_nil]
    exact hdeeds

/-- One more turn, in which a build is begun. -/
theorem Fits.sound_concat {y : Diary} (hy : Fits o first m y) {l : Look} {r : BuildResult} {ds : List Deed}
    (hdue : Due o m.look l) (hne : ds ≠ []) (hds : ds <+: Deed.all r) :
    Sound o first { y with turns := y.turns ++ [⟨l, ds⟩] } where
  regular := hy.regular.concat (by rw [hy.remembered]; exact iff_of_true (Turn.rebuilds_eq_true.2 hne) hdue)
  single := List.forall_mem_append.2 ⟨hy.single, List.forall_mem_singleton.2 ⟨r, hds⟩⟩
  ordered := by
    obtain ⟨results, hdeeds, -⟩ := hy.complete
    refine ⟨results ++ [r], ?_⟩
    rw [Diary.deeds_of_concat, hdeeds, List.flatMap_append, List.flatMap_singleton]
    exact (List.prefix_append_right_inj _).2 hds

/-- A poll adds its turn, and makes at most one more build. -/
theorem wp_poll_noted {s : (Diary × σ) × Host} (hs : Fits o first m s.1.1) :
    wp (poll o (around.noted path) path m) (fun m' t => Fits o first m' t.1.1 ∧ (m' = m ∨ m'.builds = m.builds + 1))
      (fun _ t => Sound o first t.1.1) s := by
  obtain ⟨⟨y, x⟩, h⟩ := s
  unfold poll
  rw [wp_bind]
  show wp (jotted (around.sleep o.pollInterval) _) _ _ _
  rw [wp_jotted]
  refine wp_of_forall _ (fun _ t => ?_) fun _ _ => hs.sound
  rw [wp_bind, wp_stamp]
  dsimp only [Diary.look]
  cases hseen : found path t.2 with
  | error f => exact hs.sound
  | ok seen =>
    let l : Look := ⟨seen, around.clock t.1 t.2⟩
    show wp (do
      let r ← MonadExcept.ofExcept (step o m l.seen l.now)
      _) _ _ ((y.wake l, t.1), t.2)
    rw [wp_bind, wp_ofExcept]
    cases hr : step o m l.seen l.now with
    | error f => exact (hs.wake (not_due_of_step_error hr)).sound
    | ok r =>
      have hdue : r ≠ none ↔ Due o m.look l := due_iff_of_step hr
      cases r with
      | none => exact ⟨hs.wake (fun h => hdue.2 h rfl), .inl rfl⟩
      | some m' =>
        show wp (_ >>= fun _ => rebuild (around.noted path) path >>= fun _ => pure m') _ _ _
        rw [wp_bind, wp_lift, wp_write, wp_bind]
        have hm' : m' = ⟨m.builds + 1, l.seen, l.now⟩ := by
          obtain ⟨h, -⟩ | ⟨h, -⟩ := step_cases o hr
          · cases h
          · exact Option.some.inj h
        have hnew := hdue.1 nofun
        refine wp_mono _ (wp_rebuild_noted (fun ds => { y with turns := y.turns ++ [⟨l, ds⟩] })
          (Diary.add_of_concat y.opening y.turns l) rfl) ?_ ?_
        · rintro _ u ⟨r, hu⟩
          rw [wp_pure, hu, hm']
          exact ⟨hs.concat hnew, .inr rfl⟩
        · rintro _ u ⟨r, ds, hne, hds, hu⟩
          rw [hu]
          exact hs.sound_concat hnew hne hds

/-- The first build comes before all turns. -/
theorem wp_start_noted {s : (Diary × σ) × Host} (hs : s.1.1 = {}) : wp (start (around.noted path) path)
    (fun m t => Fits o m.look m t.1.1 ∧ m.builds = 1 ∧ m.builtAt = around.clock t.1.2 t.2)
    (fun _ _ => True) s := by
  unfold start
  rw [wp_bind]
  refine wp_mono _ (wp_rebuild_noted (fun ds => ⟨ds, []⟩) Diary.add_of_nil hs) ?_ fun _ _ _ => trivial
  rintro _ t ⟨r, ht⟩
  rw [wp_bind, wp_stamp]
  cases found path t.2 with
  | error f => trivial
  | ok seen =>
    have hdeeds : t.1.1.deeds = [r].flatMap Deed.all := by rw [ht]; rfl
    refine ⟨⟨?_, ?_, ?_, [r], hdeeds, rfl⟩, rfl, rfl⟩
    · rw [ht]
      exact regular_nil
    · rw [ht]
      exact fun _ h => nomatch h
    · rw [ht]
      rfl

/-! ### The polls of a run -/

/-- There are no more builds than wanted, but always the first one. -/
structure Within (o : Options) (m : Memory) : Prop where
  one_le : 1 ≤ m.builds
  le_max : ∀ k, o.maxBuilds = some (.int k) → (m.builds : Int) ≤ max 1 k

theorem goesOn_iff {k : Int} (hk : o.maxBuilds = some (.int k)) : goesOn o m = true ↔ (m.builds : Int) < k := by
  unfold goesOn
  rw [hk]
  simp [Number.exceeds, Number.atLeast]
  omega

theorem loop_run {fuel : Nat} {m' : Memory} {s s' : σ × Host} (hgo : goesOn o m = true)
    (h : (poll o around path m).run s = (.ok m', s')) :
    (loop o around path (fuel + 1) m).run s = (loop o around path fuel m').run s' := by
  rw [loop, hgo]
  exact run_bind_of_ok h

theorem wp_loop_noted (fuel : Nat) {s : (Diary × σ) × Host} (hs : Fits o first m s.1.1) (hw : Within o m) :
    wp (loop o (around.noted path) path fuel m)
      (fun n t => ∃ m', Fits o first m' t.1.1 ∧ Within o m' ∧ goesOn o m' = false ∧ n = m'.builds)
      (fun _ t => Sound o first t.1.1) s := by
  induction fuel generalizing m s with
  | zero => exact hs.sound
  | succ fuel ih =>
    unfold loop
    cases hgo : goesOn o m with
    | false => exact ⟨m, hs, hw, hgo, rfl⟩
    | true =>
      show wp (poll o (around.noted path) path m >>= fun m' => loop o (around.noted path) path fuel m') _ _ s
      rw [wp_bind]
      refine wp_mono _ (wp_poll_noted hs) ?_ fun _ _ h => h
      rintro m' t ⟨ht, rfl | hbuilds⟩
      · exact ih ht hw
      · refine ih ht ⟨by omega, fun k hk => ?_⟩
        have hlt := (goesOn_iff hk).1 hgo
        omega

/-- A watcher's run after the first build, however it ends: it rebuilds in time, one build for a poll, and what it
does is done build after build. If it comes to an end, it has told of every build and gives back their number. -/
theorem loop_timely {fuel : Nat} {s s₁ s' : σ × Host} {r : Except Failure Nat}
    (hstart : (start around path).run s = (.ok m, s₁)) (hloop : (loop o around path fuel m).run s₁ = (r, s')) :
    found path s₁.2 = .ok m.stamp ∧ m.builtAt = around.clock s₁.1 s₁.2 ∧ ∃ y : Diary,
      (start (around.noted path) path >>= loop o (around.noted path) path fuel).run (({}, s.1), s.2) =
        (r, ((y, s'.1), s'.2)) ∧
      Timely o m.look y.turns ∧ (∀ t ∈ y.turns, ∃ result, t.deeds <+: Deed.all result) ∧
      ∃ results : List BuildResult, y.deeds <+: results.flatMap Deed.all ∧
        ∀ n, r = .ok n → y.deeds = results.flatMap Deed.all ∧ n = results.length ∧
          ∀ k, o.maxBuilds = some (.int k) → (n : Int) = max 1 k := by
  have hplain := forgets_start around path (({}, s.1), s.2)
  rw [show plain (({}, s.1), s.2) = s from rfl, hstart] at hplain
  -- the state after the first build, with the diary
  obtain ⟨t, hnoted, ht⟩ : ∃ t, (start (around.noted path) path).run (({}, s.1), s.2) = (.ok m, t) ∧ plain t = s₁ :=
    ⟨_, Prod.ext (Prod.ext_iff.1 hplain).1 rfl, (Prod.ext_iff.1 hplain).2⟩
  obtain ⟨hfits, hone, hnow⟩ := (wp_iff.1 (wp_start_noted (o := o) rfl)).1 m t hnoted
  have hw : Within o m := ⟨hone.ge, fun k _ => by rw [hone]; exact Int.le_max_left ..⟩
  have hrest := forgets_loop o around path fuel m t
  rw [ht, hloop] at hrest
  obtain ⟨⟨⟨y, x⟩, h⟩, hrun, rfl⟩ : ∃ u, (loop o (around.noted path) path fuel m).run t = (r, u) ∧ plain u = s' :=
    ⟨_, Prod.ext (Prod.ext_iff.1 hrest).1 rfl, (Prod.ext_iff.1 hrest).2⟩
  have hwp : wp (loop o (around.noted path) path fuel m) _ _ t := wp_loop_noted fuel hfits hw
  refine ⟨(start_cases hstart).2, by rw [← ht]; exact hnow, y, (run_bind_of_ok hnoted).trans hrun, ?_⟩
  cases r with
  | error f =>
    have hy : Sound o m.look y := (wp_iff.1 hwp).2 f _ hrun
    have ⟨results, hdeeds⟩ := hy.ordered
    exact ⟨hy.regular.timely, hy.single, results, hdeeds, nofun⟩
  | ok n =>
    obtain ⟨m', hy, hw', hgo, rfl⟩ := (wp_iff.1 hwp).1 n _ hrun
    have ⟨results, hdeeds, hlen⟩ := hy.complete
    refine ⟨hy.regular.timely, hy.single, results, hdeeds ▸ List.prefix_rfl, ?_⟩
    intro n hn
    cases hn
    refine ⟨hdeeds, hlen.symm, fun k hk => ?_⟩
    have hle := hw'.le_max k hk
    have hge : ¬ (m'.builds : Int) < k := fun hlt => Bool.false_ne_true (hgo.symm.trans ((goesOn_iff hk).2 hlt))
    have hpos := hw'.one_le
    omega

section Saving

/-- Two builds, of which the second has to wait for a second poll. -/
def patient : Options where
  debounce := .int 1500
  maxBuilds := some (.int 2)

/-- The component is saved during every sleep. -/
def saving : Surroundings Nat :=
  among (return) (save 2000)

theorem saved_twice : ∃ y : Diary, Timely patient ⟨some (.at 1000), .int 0⟩ y.turns ∧
    ∃ results : List BuildResult, y.deeds = results.flatMap Deed.all ∧ results.length = 2 := by
  have hstart : (start saving component).run unbuilt = (.ok ⟨1, some (.at 1000), .int 0⟩, builtOnce saving) := rfl
  have hearly : (poll patient saving component ⟨1, some (.at 1000), .int 0⟩).run (builtOnce saving) =
    (.ok ⟨1, some (.at 1000), .int 0⟩, awake patient saving (builtOnce saving)) := rfl
  have hlate : ((poll patient saving component ⟨1, some (.at 1000), .int 0⟩).run
      (awake patient saving (builtOnce saving))).1 = .ok ⟨2, some (.at 2000), .int 2⟩ := by rfl
  have hloop : (loop patient saving component 3 ⟨1, some (.at 1000), .int 0⟩).run (builtOnce saving) = (.ok 2, _) :=
    (loop_run rfl hearly).trans ((loop_run rfl (Prod.ext hlate rfl)).trans rfl)
  obtain ⟨-, -, y, -, htimely, -, results, -, hall⟩ := loop_timely hstart hloop
  exact ⟨y, htimely, results, (hall 2 rfl).1, (hall 2 rfl).2.1.symm⟩

end Saving

end Bundler.Watch
