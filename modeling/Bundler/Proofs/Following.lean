import Bundler.Proofs.Delivering
import Bundler.Proofs.Growing

/-!
# What a whole run does to the tree

The tree of a run goes through steps of the bundler's own, of which there are only three kinds (`Cache.Tends`), through
what others do while the lock is waited for, and through its calls, in the order in which they are made (`Course`).
Others get their turn at most once, and then the tree is still as it was when the cache was made ready. Whatever the
bundler does after that follows from what each of its steps does (`Follows`), in whichever way they are put together,
and so there is a course for every run (`Run.run_course`). In the same way the calls of a run are those of its steps
(`Host.Gains`), and it fails by one of them if a step does (`FailsBy`).
-/

namespace Bundler

variable {α β ε σ τ : Type}

/-- Whether it fails or not, the step gets from a state to a related one. -/
def Follows (R : τ → τ → Prop) (a : ExceptT ε (StateM τ) α) : Prop :=
  ∀ s, R s (a.run s).2

/-- The same with something that is kept besides. -/
def Behind (R : Host → Host → Prop) (s s' : σ × Host) : Prop :=
  R s.2 s'.2

instance {R : Host → Host → Prop} [Chained R] : Chained (Behind (σ := σ) R) :=
  ⟨fun s => Chained.refl s.2, fun a b => Chained.trans (R := R) a b⟩

theorem follows_of_wp {R : τ → τ → Prop} {a : ExceptT ε (StateM τ) α}
    (h : ∀ s, wp a (fun _ t => R s t) (fun _ t => R s t) s) : Follows R a := by
  intro s
  have hs := h s
  unfold wp at hs
  split at hs
  · next hr => rw [hr]; exact hs
  · next hr => rw [hr]; exact hs

namespace Follows

section Any

variable {R S T : τ → τ → Prop}

theorem bind_of {a : ExceptT ε (StateM τ) α} {f : α → ExceptT ε (StateM τ) β} (ha : Follows R a)
    (hf : ∀ x, Follows S (f x)) (hstop : ∀ {s t}, R s t → T s t) (hgo : ∀ {s t u}, R s t → S t u → T s u) :
    Follows T (a >>= f) := by
  intro s
  have hs := ha s
  rw [run_bind]
  rcases hr : a.run s with ⟨e | x, t⟩
  · rw [hr] at hs
    exact hstop hs
  · rw [hr] at hs
    exact hgo hs (hf x t)

variable [Chained R]

theorem pure (x : α) : Follows R (pure x : ExceptT ε (StateM τ) α) := fun s => Chained.refl s

theorem throw (e : ε) : Follows R (throw e : ExceptT ε (StateM τ) α) := fun s => Chained.refl s

theorem ofExcept (r : Except ε α) : Follows R (MonadExcept.ofExcept r : ExceptT ε (StateM τ) α) := fun s => by
  cases r <;> exact Chained.refl s

theorem bind {a : ExceptT ε (StateM τ) α} {f : α → ExceptT ε (StateM τ) β} (ha : Follows R a)
    (hf : ∀ x, Follows R (f x)) : Follows R (a >>= f) :=
  ha.bind_of hf id Chained.trans

/-- From where the first of two steps gets, the second gets to where both do. -/
theorem snd_bind {a : ExceptT ε (StateM τ) α} {f : α → ExceptT ε (StateM τ) β} (hf : ∀ x, Follows R (f x)) (s : τ) :
    R (a.run s).2 ((a >>= f).run s).2 := by
  rw [run_bind]
  rcases a.run s with ⟨e | x, t⟩
  · exact Chained.refl t
  · exact hf x t

theorem bind_yields {a : ExceptT ε (StateM τ) α} {f : α → ExceptT ε (StateM τ) β} (ha : Follows R a) {P : α → Prop}
    (hP : ∀ s, wp a (fun x _ => P x) (fun _ _ => True) s) (hf : ∀ x, P x → Follows R (f x)) : Follows R (a >>= f) := by
  intro s
  have hs := ha s
  have hyields := (wp_iff.1 (hP s)).1
  rw [run_bind]
  rcases hr : a.run s with ⟨e | x, t⟩
  · rw [hr] at hs
    exact hs
  · rw [hr] at hs
    exact Chained.trans hs (hf x (hyields x t hr) t)

theorem filterM {p : α → ExceptT ε (StateM τ) Bool} (hp : ∀ x, Follows R (p x)) (xs : List α) :
    Follows R (xs.filterM p) := by
  have haux : ∀ acc, Follows R (xs.filterAuxM p acc) := by
    induction xs with
    | nil => exact fun acc => pure acc
    | cons x xs ih => exact fun acc => (hp x).bind fun b => ih _
  exact (haux []).bind fun ys => pure _

theorem forM {p : α → ExceptT ε (StateM τ) PUnit} (hp : ∀ x, Follows R (p x)) :
    ∀ xs : List α, Follows R (xs.forM p)
  | [] => pure _
  | x :: xs => (hp x).bind fun _ => forM hp xs

end Any

theorem wp_and {R : τ → τ → Prop} {a : ExceptT ε (StateM τ) α} (ha : Follows R a) {Q : α → τ → Prop} {E : ε → τ → Prop}
    {s : τ} (h : wp a Q E s) : wp a (fun x t => Q x t ∧ R s t) (fun e t => E e t ∧ R s t) s := by
  have hs := ha s
  rw [wp_iff] at h ⊢
  refine ⟨fun x t hr => ⟨h.1 x t hr, ?_⟩, fun e t hr => ⟨h.2 e t hr, ?_⟩⟩
  · rwa [hr] at hs
  · rwa [hr] at hs

variable {R : Host → Host → Prop}

theorem of_stays {a : Action α} (ha : a.Stays R) : Follows R a :=
  follows_of_wp fun h => wp_mono _ (ha h) (fun _ _ hh => hh) fun _ _ hh => hh.1

theorem of_looks (hsame : ∀ h h' : Host, h.Same h' → R h h') {a : Action α} (ha : a.Looks) : Follows R a :=
  of_stays (ha.mono (hsame _ _))

theorem attempt {a : Action α} (ha : Follows R a) : Follows R (Action.attempt a) := fun h => ha h

theorem toAction {a : ActionWith σ α} (ha : Follows (Behind R) a) (s : σ) : Follows R (a.toAction s) := fun h =>
  ha (s, h)

theorem lift {a : Action α} (ha : Follows R a) : Follows (Behind R) (liftM a : ActionWith σ α) := fun s => ha s.2

theorem kept [Chained R] : Follows (Behind R) (ActionWith.kept : ActionWith σ σ) := fun s => Chained.refl s.2

theorem update [Chained R] (f : σ → σ) : Follows (Behind R) (ActionWith.update f) := fun s => Chained.refl s.2

theorem during {a : Action α} (ha : Follows R a) (stage : Stage) : Follows R (Run.during stage a) := fun h => ha h

end Follows

/-! ### Passes -/

/-- What the first pass does after its call. -/
def Missing.sift (w : Workplace) (entry : Path) (answer : Json) : Action (List String) := do
  let missing ← absent w.cache (← MonadExcept.ofExcept (names answer))
  if missing.isEmpty then Action.write .debug source ("No missing packages for " ++ entry.text)
  else Action.write .info source ("Missing packages: " ++ " ".intercalate missing)
  return missing

theorem Missing.find_eq (w : Workplace) (entry : Path) :
    find w entry = w.runPass .discover (config w entry) >>= sift w entry := rfl

theorem follows_runPass_of {R : Host → Host → Prop} [Chained R] (w : Workplace) {p : Pass} {config : Json}
    (hcall : ∀ plan : Call, plan.kind = .pass p → Follows R (Action.call plan)) : Follows R (w.runPass p config) :=
  .bind (hcall (w.passCall p config) rfl) fun _ => .bind (fun h => Chained.refl h) fun _ => .ofExcept _

section Passes

variable {R : Host → Host → Prop} [Chained R] (hsame : ∀ h h' : Host, h.Same h' → R h h') (w : Workplace)
  (hpass : ∀ p config, Follows R (w.runPass p config))

include hsame

omit [Chained R] in
theorem follows_note (level : Level) (text : String) : Follows R (Run.note level text) := fun h => hsame _ _ (.log h _)

theorem follows_sift (entry : Path) (answer : Json) : Follows R (Missing.sift w entry answer) := by
  have hwrite : ∀ l source text, Follows R (Action.write l source text) := fun _ _ _ =>
    .of_looks hsame (Action.looks_write _ _ _)
  refine .bind (.ofExcept _) fun names =>
    .bind (.of_looks hsame (Missing.looks_absent w.cache names)) fun missing => ?_
  dsimp only
  split
  · exact .bind (hwrite _ _ _) fun _ => .pure _
  · exact .bind (hwrite _ _ _) fun _ => .pure _

include hpass

theorem follows_find (entry : Path) : Follows R (Missing.find w entry) :=
  .bind (hpass .discover _) fun answer => follows_sift hsame w entry answer

theorem follows_compile (harness : String) (entry : Path) : Follows R (Script.compile w harness entry) :=
  .bind (hpass .finalize _) fun _ => .bind (.ofExcept _) fun _ =>
    .bind (.of_looks hsame (Action.looks_write _ _ _)) fun _ => .pure _

theorem follows_style (script : String) : Follows R (Run.style w script) := by
  have hnote : ∀ l text, Follows R (Run.note l text) := follows_note hsame
  have hsynthesize : Follows R (Run.always (Styling.synthesize w script)) := by
    intro h
    show R h ((Styling.synthesize w script).run h).2
    rw [Styling.synthesize_run]
    exact hpass .styles _ h
  unfold Run.style
  split
  · exact .bind (hnote _ _) fun _ => .pure _
  · refine .bind hsynthesize fun o => ?_
    split
    · exact .bind (hnote _ _) fun _ => .pure _
    · exact .bind (hnote _ _) fun _ => .bind (hnote _ _) fun _ => .pure _

theorem follows_compiling (resolved : Path) : Follows R (Run.compiling w resolved) :=
  .bind (follows_note hsame _ _) fun _ => .bind (.during (follows_compile hsame w hpass _ resolved) _) fun script =>
    .bind (follows_note hsame _ _) fun _ => follows_style hsame w hpass script

end Passes

/-! ### Installs -/

/-- All of what is missing has to be there after an install. -/
def Run.insist (w : Workplace) (missing : List String) : Action Unit := do
  let absent ← missing.filterM fun n => return !(← w.cache.isInstalled n)
  if !absent.isEmpty then
    throw (.bundle
      { kind := .install
        message := "Packages still missing after install: " ++ Installer.names absent
        packages := absent })

section Installs

variable {R : Host → Host → Prop} [Chained R] (hsame : ∀ h h' : Host, h.Same h' → R h h') (w : Workplace)

include hsame

theorem follows_pending (specifiers : List String) : Follows (Behind R) (Installer.pending w specifiers) := by
  refine Follows.bind (.ofExcept _) fun names => .filterM (fun n => .bind .kept fun i => ?_) names
  split
  · exact .pure _
  · exact .bind (.lift (.of_looks hsame (w.cache.looks_isInstalled n))) fun _ => .pure _

theorem follows_installLocked (hcall : ∀ plan, Follows R (Action.call plan)) (batch : List String) :
    Follows (Behind R) (Installer.installLocked w batch) := by
  refine .bind (follows_pending hsame w batch) fun batch => ?_
  split
  · exact .pure _
  refine .bind (.update _) fun _ => .bind (.bind (.lift (.of_looks hsame (Action.looks_write _ _ _))) fun _ =>
    .bind (.update _) fun _ => .bind (.lift (.attempt (hcall _))) fun r => ?_) fun _ => .pure _
  split
  · exact .throw _
  · split
    · exact .throw _
    · exact .pure _

theorem follows_insist (missing : List String) : Follows R (Run.insist w missing) := by
  refine .bind (.filterM (fun n => .bind (.of_looks hsame (w.cache.looks_isInstalled n)) fun _ => .pure _) missing)
    fun absent => ?_
  split
  · exact .throw _
  · exact .pure _

theorem follows_completing (hpass : ∀ p config, Follows R (w.runPass p config)) (i : Installer) (resolved : Path)
    {missing : List String} (hmissing : Follows R (Run.installMissing w i missing)) :
    Follows R (Run.completing w i resolved missing) :=
  .bind (follows_note hsame _ _) fun _ => .bind (.during hmissing _) fun _ =>
    follows_compiling hsame w hpass resolved

theorem follows_discovering_of_missing (hpass : ∀ p config, Follows R (w.runPass p config)) (i : Installer)
    (resolved : Path) (hmissing : ∀ missing, Follows R (Run.installMissing w i missing)) :
    Follows R (Run.discovering w i resolved) :=
  .bind (follows_note hsame _ _) fun _ => .bind (.during (follows_find hsame w hpass resolved) _) fun missing =>
    follows_completing hsame w hpass i resolved (hmissing missing)

variable (hinstall : ∀ specifiers, Follows (Behind R) (Installer.install w specifiers))

include hinstall

theorem follows_installMissing (i : Installer) (missing : List String) :
    Follows R (Run.installMissing w i missing) :=
  .bind (.toAction (hinstall missing) i) fun _ => follows_insist hsame w missing

theorem follows_discovering (hpass : ∀ p config, Follows R (w.runPass p config)) (i : Installer) (resolved : Path) :
    Follows R (Run.discovering w i resolved) :=
  follows_discovering_of_missing hsame w hpass i resolved (follows_installMissing hsame w hinstall i)

end Installs

/-! ### Calls -/

/-- From one host to a later one, with no other calls in between than those with a property. -/
def Host.Gains (P : Call → Prop) (h h' : Host) : Prop :=
  ∃ made, h'.calls = h.calls ++ made ∧ ∀ c ∈ made, P c

namespace Host

variable {P Q : Call → Prop} {h h' h'' : Host}

theorem Gains.nothing (hcalls : h'.calls = h.calls) : h.Gains P h' :=
  ⟨[], by rw [hcalls, List.append_nil], List.forall_mem_nil _⟩

theorem Gains.mono (ha : h.Gains P h') (hPQ : ∀ c, P c → Q c) : h.Gains Q h' :=
  have ⟨made, hcalls, hmade⟩ := ha
  ⟨made, hcalls, fun c hc => hPQ c (hmade c hc)⟩

instance : Chained (Gains P) where
  refl _ := .nothing rfl
  trans := by
    rintro h h' h'' ⟨made, hcalls, hmade⟩ ⟨more, hcalls', hmore⟩
    exact ⟨made ++ more, by rw [hcalls', hcalls, List.append_assoc], List.forall_mem_append.2 ⟨hmade, hmore⟩⟩

theorem Alike.gains (hh : h.Alike h') : h.Gains P h' := .nothing hh.calls

theorem Same.gains (hh : h.Same h') : h.Gains P h' := hh.alike.gains

theorem Adds.gains {made : List Call} (ha : h.Adds P made h') (hmade : ∀ c ∈ made, Q c) : h.Gains Q h' :=
  ⟨made, ha.calls, hmade⟩

end Host

namespace Run

section Calls

variable {P : Call → Prop} (w : Workplace)

/-- A pass makes its own call. -/
theorem gains_runPass {p : Pass} {config : Json} (hP : ∀ m, P { w.passCall p config with moment := m }) :
    Follows (Host.Gains P) (w.runPass p config) := by
  have hcalled : ∀ {c : Call} {h h' : Host}, h.Called (w.passCall p config) c h' → h.Gains P h' := fun hc =>
    ⟨[_], hc.calls, List.forall_mem_singleton.2 (hc.planned ▸ hP _)⟩
  exact follows_of_wp fun h => wp_mono _ (w.wp_runPass p config h) (fun _ _ ⟨_, hc, _⟩ => hcalled hc)
    fun _ _ ⟨_, hc, _⟩ => hcalled hc

section Installs

variable (hP : ∀ c, w.Makes c → c.kind = .npm → P c)

include hP

/-- An install calls the package manager, if it calls anything. -/
theorem gains_of_install {h h' : Host} {specifiers : List String} {made : List Call} {asked : Bool}
    (hadds : h.Adds (MakesFor w specifiers) made h') (hkinds : made.map Call.kind = Call.Kind.npm.when asked) :
    h.Gains P h' :=
  hadds.gains fun c hc => hP c (hadds.all c hc).1 (kind_of_when hkinds c hc)

theorem gains_installBase : Follows (Host.Gains P) (installBase w) :=
  follows_of_wp fun h => wp_mono _ (wp_installBase w h)
    (fun _ _ ⟨_, _, hadds, hkinds, _⟩ => gains_of_install w hP hadds hkinds)
    fun _ _ ⟨_, _, _, hadds, hkinds⟩ => gains_of_install w hP hadds hkinds

theorem gains_installMissing (i : Installer) (missing : List String) :
    Follows (Host.Gains P) (installMissing w i missing) :=
  follows_of_wp fun h => wp_mono _ (wp_installMissing w i missing h)
    (fun _ _ ⟨⟨_, _, hadds, hkinds, _⟩, _⟩ => gains_of_install w hP hadds hkinds)
    fun _ _ ⟨_, _, _, hadds, hkinds⟩ => gains_of_install w hP hadds hkinds

end Installs

theorem gains_style (hP : ∀ c, w.Makes c → c.kind = .pass .styles → P c) (script : String) :
    Follows (Host.Gains P) (style w script) :=
  follows_of_wp fun h => wp_mono _ (wp_style w script h)
    (fun _ _ ⟨_, hadds, hkinds, _⟩ => hadds.gains fun c hc => hP c (hadds.all c hc) (kind_of_when hkinds c hc))
    fun _ _ hno => hno.elim

end Calls

end Run

/-- Where a call of the step is one of these, the step fails, and by what goes with the call. -/
def FailsBy (Q : Call → Prop) (R : Failure → Call → Prop) (failure : ε → Failure) (a : ExceptT ε (StateM Host) α) :
    Prop :=
  ∀ h, ∃ made, (a.run h).2.calls = h.calls ++ made ∧
    ∀ c ∈ made, Q c → ∃ e, (a.run h).1 = .error e ∧ R (failure e) c

namespace FailsBy

variable {Q : Call → Prop} {R : Failure → Call → Prop} {failure : ε → Failure}

theorem of_follows {a : ExceptT ε (StateM Host) α} (ha : Follows (Host.Gains fun c => ¬Q c) a) :
    FailsBy Q R failure a := by
  intro h
  obtain ⟨made, hcalls, hnone⟩ := ha h
  exact ⟨made, hcalls, fun c hc hQ => absurd hQ (hnone c hc)⟩

theorem bind_yields {a : ExceptT ε (StateM Host) α} {f : α → ExceptT ε (StateM Host) β} (ha : FailsBy Q R failure a)
    {P : α → Prop} (hP : ∀ h, wp a (fun x _ => P x) (fun _ _ => True) h) (hf : ∀ x, P x → FailsBy Q R failure (f x)) :
    FailsBy Q R failure (a >>= f) := by
  intro h
  obtain ⟨made, hcalls, hfails⟩ := ha h
  rcases hr : a.run h with ⟨e | x, h₁⟩
  · rw [run_bind_of_error hr]
    rw [hr] at hcalls hfails
    refine ⟨made, hcalls, fun c hc hQ => ?_⟩
    obtain ⟨_, he, hR⟩ := hfails c hc hQ
    exact ⟨e, rfl, Except.error.inj he ▸ hR⟩
  · rw [run_bind_of_ok hr]
    rw [hr] at hcalls hfails
    obtain ⟨more, hmore, hfails'⟩ := hf x ((wp_iff.1 (hP h)).1 x h₁ hr) h₁
    refine ⟨made ++ more, by rw [hmore, hcalls, List.append_assoc],
      List.forall_mem_append.2 ⟨fun c hc hQ => ?_, hfails'⟩⟩
    -- the step went on, and so it hadn't failed
    obtain ⟨_, he, -⟩ := hfails c hc hQ
    nomatch he

theorem bind {a : ExceptT ε (StateM Host) α} {f : α → ExceptT ε (StateM Host) β} (ha : FailsBy Q R failure a)
    (hf : ∀ x, FailsBy Q R failure (f x)) : FailsBy Q R failure (a >>= f) :=
  ha.bind_yields (P := fun _ => True) (fun _ => wp_of_forall _ (fun _ _ => trivial) fun _ _ => trivial) fun x _ => hf x

theorem during {a : Action α} (ha : FailsBy Q R id a) (stage : Stage) :
    FailsBy Q R Halt.failure (Run.during stage a) := by
  intro h
  obtain ⟨made, hcalls, hfails⟩ := ha h
  refine ⟨made, hcalls, fun c hc hQ => ?_⟩
  obtain ⟨f, hf, hR⟩ := hfails c hc hQ
  have hrun : ((Run.during stage a).run h).1 = (a.run h).1.mapError (⟨·, stage⟩) := rfl
  exact ⟨⟨f, stage⟩, by rw [hrun, hf]; rfl, hR⟩

/-- A step that is only looked at when something else is done fails as if it were done alone. -/
theorem attempt {a : Action α} (ha : FailsBy Q R id a) {after : Action Unit} {g : α → β}
    (hafter : ∀ h, ∃ h', after.run h = (.ok (), h') ∧ h'.calls = h.calls) :
    FailsBy Q R id (do let r ← Action.attempt a; after; return g (← MonadExcept.ofExcept r) : Action β) := by
  intro h
  obtain ⟨made, hcalls, hfails⟩ := ha h
  obtain ⟨h', hr', hcalls'⟩ := hafter (a.run h).2
  have hattempt : (Action.attempt a).run h = (.ok (a.run h).1, (a.run h).2) := rfl
  rw [run_bind_of_ok hattempt, run_bind_of_ok hr']
  rw [← hcalls'] at hcalls
  rcases hr : (a.run h).1 with f | x
  · refine ⟨made, hcalls, fun c hc hQ => ?_⟩
    obtain ⟨_, he, hR⟩ := hfails c hc hQ
    obtain rfl := Except.error.inj (hr.symm.trans he)
    exact ⟨f, rfl, hR⟩
  · refine ⟨made, hcalls, fun c hc hQ => ?_⟩
    obtain ⟨_, he, -⟩ := hfails c hc hQ
    nomatch hr.symm.trans he

end FailsBy

/-! ### The way of a tree -/

/-- The way of a tree through steps of the bundler's own, through what others do, and through calls, which are made one
after the other. -/
inductive Course (Own Others : Tree → Tree → Prop) : Tree → List Call → Tree → Prop where
  | done (t : Tree) : Course Own Others t [] t
  | own {t t' t'' : Tree} {made : List Call} (h : Own t t') (rest : Course Own Others t' made t'') :
    Course Own Others t made t''
  | others {t t' t'' : Tree} {made : List Call} (h : Others t t') (rest : Course Own Others t' made t'') :
    Course Own Others t made t''
  | call {c : Call} {t t' : Tree} {made : List Call} (h : c.moment.tree = t)
      (rest : Course Own Others c.result.2 made t') :
    Course Own Others t (c :: made) t'

namespace Course

variable {Own Own' Others : Tree → Tree → Prop} {t t' t'' : Tree} {made more : List Call}

theorem append (h : Course Own Others t made t') (hmore : Course Own Others t' more t'') :
    Course Own Others t (made ++ more) t'' := by
  induction h with
  | done => exact hmore
  | own h _ ih => exact .own h (ih hmore)
  | others h _ ih => exact .others h (ih hmore)
  | call h _ ih => exact .call h (ih hmore)

/-- What each step keeps is kept to the end, and may be used of each step. -/
theorem imp {I : Tree → Prop} (hown : ∀ {t t'}, I t → Own t t' → I t' ∧ Own' t t')
    (hothers : ∀ {t t'}, I t → Others t t' → I t') (h : Course Own Others t made t')
    (hcalls : ∀ c ∈ made, I c.moment.tree → I c.result.2) (ht : I t) : I t' ∧ Course Own' Others t made t' := by
  induction h with
  | done t => exact ⟨ht, .done t⟩
  | own h _ ih =>
    obtain ⟨hkept, h'⟩ := hown ht h
    obtain ⟨hend, hrest⟩ := ih hcalls hkept
    exact ⟨hend, .own h' hrest⟩
  | others h _ ih =>
    obtain ⟨hend, hrest⟩ := ih hcalls (hothers ht h)
    exact ⟨hend, .others h hrest⟩
  | @call c t t' made h _ ih =>
    have hkept := hcalls c (List.mem_cons_self ..) (h ▸ ht)
    obtain ⟨hend, hrest⟩ := ih (fun d hd => hcalls d (List.mem_cons_of_mem c hd)) hkept
    exact ⟨hend, .call h hrest⟩

theorem after {before rest : List Call} {c : Call} (h : Course Own Others t (before ++ c :: rest) t') :
    Course Own Others c.result.2 rest t' := by
  generalize hmade : before ++ c :: rest = made at h
  induction h generalizing before with
  | done => simp at hmade
  | own _ _ ih => exact ih hmade
  | others _ _ ih => exact ih hmade
  | call _ hrest ih =>
    cases before with
    | nil =>
      cases hmade
      exact hrest
    | cons d before =>
      cases hmade
      exact ih rfl

end Course

/-! ### What each step does -/

/-- What others do to a tree while the lock is waited for. -/
def Host.others (h : Host) (t : Tree) : Tree :=
  ((Change.applyAll h.cwd h.beforeLock).run t).2

/-- Others have had their turn; or it may still be theirs, and then everything is as it was at the start. -/
structure Host.Stands (start : Host) (turn : Prop) (h : Host) : Prop where
  cwd : h.cwd = start.cwd
  waits : h.beforeLock = [] ∨ turn ∧ h.beforeLock = start.beforeLock ∧ h.tree = start.tree

/-- The way of the tree from one host to a later one. -/
def Host.Goes (cache : Cache) (start : Host) (turn turn' : Prop) (h h' : Host) : Prop :=
  start.Stands turn h → start.Stands turn' h' ∧ ∃ made, h'.calls = h.calls ++ made ∧
    Course (cache.Tends start.cwd) (fun t t' => t = start.tree ∧ t' = start.others t) h.tree made h'.tree

namespace Host

variable {cache : Cache} {start h h' h'' : Host} {turn turn' turn'' : Prop}

theorem Stands.mono (hh : start.Stands turn h) (hturn : turn → turn') : start.Stands turn' h :=
  ⟨hh.cwd, hh.waits.imp_right fun hw => ⟨hturn hw.1, hw.2⟩⟩

theorem Goes.trans (a : Goes cache start turn turn' h h') (b : Goes cache start turn' turn'' h' h'') :
    Goes cache start turn turn'' h h'' := by
  intro hh
  obtain ⟨hh', made, hcalls, hcourse⟩ := a hh
  obtain ⟨hh'', more, hmore, hrest⟩ := b hh'
  exact ⟨hh'', made ++ more, by rw [hmore, hcalls, List.append_assoc], hcourse.append hrest⟩

theorem Goes.mono (a : Goes cache start turn turn' h h') (hturn : turn' → turn'') :
    Goes cache start turn turn'' h h' := fun hh =>
  ⟨(a hh).1.mono hturn, (a hh).2⟩

theorem Goes.still (hcwd : h'.cwd = h.cwd) (hwaits : h'.beforeLock = h.beforeLock) (hcalls : h'.calls = h.calls)
    (htree : h'.tree = h.tree) : Goes cache start turn turn h h' := fun hh =>
  ⟨⟨hcwd.trans hh.cwd, by rw [hwaits, htree]; exact hh.waits⟩, [], by rw [hcalls, List.append_nil],
    by rw [htree]; exact .done h.tree⟩

instance : Chained (Goes cache start turn turn) :=
  ⟨fun _ => .still rfl rfl rfl rfl, Goes.trans⟩

theorem Same.goes (hh : h.Same h') : Goes cache start turn turn h h' := by
  obtain ⟨lines, rfl⟩ := hh
  exact .still rfl rfl rfl rfl

theorem Goes.own {t : Tree} (ht : cache.Tends h.cwd h.tree t) :
    Goes cache start False False h { h with tree := t } := fun hh =>
  ⟨⟨hh.cwd, .inl (hh.waits.resolve_right fun hw => hw.1)⟩, [], (List.append_nil _).symm, .own (hh.cwd ▸ ht) (.done t)⟩

/-- To ask for the lock is to make the directory of the cache, and perhaps the file of the lock. -/
theorem Goes.asked {t : Tree} (ht : h.tree.LockAsked h.cwd cache.lock t) :
    Goes cache start False False h { h with tree := t } := by
  have hparent : cache.lock.parent = cache.root := by
    show Path.parent ⟨cache.root.root, cache.root.parts ++ [".install.lock"]⟩ = cache.root
    simp [Path.parent]
  obtain ⟨r, made, hmade, ht⟩ := ht
  rw [hparent] at hmade
  have hroot : Goes cache start False False h { h with tree := made } := by
    have hrun : ((Action.makeDirs cache.root).run h).2 =
      { h with tree := ((Change.makeDirs h.cwd cache.root).run h.tree).2 } := rfl
    rw [hmade] at hrun
    rw [← hrun]
    exact follows_of_wp (fun h => wp_mono _ (Action.wp_makeDirs (.own (.root h.tree))) (fun _ _ hh => hh.1)
      fun _ _ hh => hh.1) h
  rcases ht with rfl | ⟨-, hwritten⟩
  · exact hroot
  · exact Chained.trans hroot (.own (.lock hwritten))

end Host

open Host (Goes)

namespace Action

/-- A call is recorded with its moment, and what comes of it is the tree. -/
theorem call_run (plan : Call) (h : Host) : ∃ c log outcomes, (call plan).run h =
    (c.result.1, { h with log, outcomes, tree := c.result.2, calls := h.calls ++ [c] }) ∧
    c.kind = plan.kind ∧ c.moment.tree = h.tree := by
  let c : Call := { plan with moment := ⟨h.tree, h.cwd, h.limits, (h.outcomes.take plan.kind).1⟩ }
  let line : LogLine := ⟨.debug, "terrarium.engine.toolchain",
    "Running " ++ Text.quotedList (plan.argv.take 3) ++ " (cwd=" ++ plan.cwdText ++ ")"⟩
  refine ⟨c, h.log ++ [line], (h.outcomes.take plan.kind).2, ?_, rfl, rfl⟩
  show (MonadExcept.ofExcept c.result.1 : Action Execution).run _ = _
  cases c.result.1 <;> rfl

end Action

section Steps

variable {cache : Cache} {start : Host} {turn : Prop}

theorem follows_looks {a : Action α} (ha : a.Looks) : Follows (Goes cache start turn turn) a :=
  .of_looks (fun _ _ => Host.Same.goes) ha

theorem follows_call (plan : Call) : Follows (Goes cache start False False) (Action.call plan) := by
  intro h hh
  obtain ⟨c, log, outcomes, hr, -, htree⟩ := Action.call_run plan h
  rw [hr]
  exact ⟨⟨hh.cwd, .inl (hh.waits.resolve_right fun hw => hw.1)⟩, [c], rfl, .call htree (.done _)⟩

theorem follows_runPass (w : Workplace) (p : Pass) (config : Json) :
    Follows (Goes cache start turn turn) (w.runPass p config) := by
  refine follows_runPass_of w fun plan hplan h hh => ?_
  obtain ⟨c, log, outcomes, hr, hkind, htree⟩ := Action.call_run plan h
  have hsame : c.result.2 = h.tree := (Call.tree_result_of_pass (hkind.trans hplan)).trans htree
  rw [hr]
  exact ⟨⟨hh.cwd, hh.waits.imp_right fun hw => ⟨hw.1, hw.2.1, hsame.trans hw.2.2⟩⟩, [c], rfl, .call htree (.done _)⟩

theorem goes_others (h : Host) :
    Goes cache start True False h { h with beforeLock := [], tree := h.others h.tree } := by
  intro hh
  refine ⟨⟨hh.cwd, .inl rfl⟩, [], (List.append_nil _).symm, ?_⟩
  rcases hh.waits with hnone | ⟨-, hwaits, htree⟩
  · have hsame : h.others h.tree = h.tree := by
      unfold Host.others
      rw [hnone]
      rfl
    show Course _ _ h.tree [] (h.others h.tree)
    rw [hsame]
    exact .done _
  · have hothers : h.others h.tree = start.others h.tree := by
      unfold Host.others
      rw [hh.cwd, hwaits]
    exact .others ⟨htree, hothers⟩ (.done _)

theorem follows_lock (h : Host) : Follows (Goes cache start False False)
    (Action.changing fun cwd => h.locking.take cwd cache.lock) := fun h' =>
  .asked (h.locking.asks h'.cwd cache.lock h'.tree)

theorem follows_acquire : Follows (Goes cache start True False) cache.acquire := by
  let locking : Action Unit := do
    let h ← get
    Action.changing fun cwd => h.locking.take cwd cache.lock
  have hlocking : Follows (Goes cache start False False) locking :=
    .bind (fun h => Chained.refl h) fun h => follows_lock h
  -- others have had their turn, whatever becomes of the steps behind it
  intro h
  show Goes cache start True False h ((Action.changeAll h.beforeLock >>= fun _ => locking).run
    { h with beforeLock := [] }).2
  have hothers : ((Action.changeAll h.beforeLock).run { h with beforeLock := [] }).2 =
    { h with beforeLock := [], tree := h.others h.tree } := rfl
  rw [run_bind, hothers]
  cases ((Action.changeAll h.beforeLock).run { h with beforeLock := [] }).1 with
  | error f => exact goes_others h
  | ok _ => exact (goes_others h).trans (hlocking _)

/-! ### What an install does -/

variable (w : Workplace)

theorem follows_install (specifiers : List String) :
    Follows (Behind (Goes w.cache start True True)) (Installer.install w specifiers) := by
  refine .bind (follows_pending (fun _ _ => Host.Same.goes) w specifiers) fun batch => ?_
  split
  · exact .pure _
  · exact Follows.bind_of (.lift follows_acquire)
      (fun _ => follows_installLocked (fun _ _ => Host.Same.goes) w follows_call batch)
      (fun hh => hh.mono fun _ => trivial) fun hh hh' => (hh.trans hh').mono fun _ => trivial

theorem follows_announce (event : String) : Follows (Goes cache start turn turn) (Action.announce event) := by
  intro h
  obtain ⟨events, stdout, hr⟩ := Action.announce_run event h
  rw [hr]
  exact .still rfl rfl rfl rfl

end Steps

/-! ### What a run does -/

namespace Run

section Steps

variable {start : Host} (w : Workplace)

theorem follows_announceIf {cache : Cache} {turn : Prop} (first : Bool) (event : String) :
    Follows (Goes cache start turn turn) (announceIf first event) := by
  cases first with
  | true => exact follows_announce event
  | false => exact .pure ()

theorem follows_installBase : Follows (Goes w.cache start True True) (installBase w) := by
  rw [installBase_eq]
  exact .bind (follows_looks w.cache.looks_needsInstall) fun first => .bind (follows_announceIf first _) fun _ =>
    .bind (.attempt (.toAction (follows_install w _) {})) fun r => .bind (follows_announceIf first _) fun _ =>
      .bind (.ofExcept r) fun _ => .pure _

/-- The steps once the cache is ready. -/
def readied (s : Settings) (entry : Path) : Staged (String × Bool) := do
  advance .init .cacheReady
  let resolved ← during .cacheReady (entryFile entry)
  let w ← during .cacheReady (workplace s)
  let installer ← during .cacheReady (installBase w)
  discovering w installer resolved

theorem follows_readied (s : Settings) (entry : Path) :
    Follows (Goes (Cache.ofSettings s) start True True) (readied s entry) := by
  have hsame : ∀ h h' : Host, h.Same h' → Goes (Cache.ofSettings s) start True True h h' := fun _ _ => Host.Same.goes
  refine .bind (follows_note hsame _ _) fun _ =>
    .bind (.during (.of_looks hsame (looks_entryFile entry)) _) fun resolved =>
    .bind_yields (.during (.of_looks hsame (looks_workplace s)) _) (P := fun w => w.cache = Cache.ofSettings s) ?_ ?_
  · intro h
    rw [wp_during]
    exact wp_mono _ (wp_workplace s (.refl h)) (fun w _ hw => hw.2.1) fun _ _ _ => trivial
  · intro w hw
    rw [← hw]
    exact .bind (.during (follows_installBase w) _) fun installer =>
      follows_discovering (fun _ _ => Host.Same.goes) w (follows_install w) (follows_runPass w) installer resolved

end Steps

end Run

/-- Nothing but the log and the tree has changed, and the tree by the bundler's own steps. -/
def Cache.Builds (c : Cache) (h h' : Host) : Prop :=
  ∃ log tree, h' = { h with log, tree } ∧ Course (c.Tends h.cwd) (fun _ _ => False) h.tree [] tree

namespace Cache

variable (c : Cache)

instance : Chained c.Builds where
  refl h := ⟨h.log, h.tree, rfl, .done h.tree⟩
  trans := by
    rintro h _ _ ⟨_, tree, rfl, hcourse⟩ ⟨log', tree', rfl, hrest⟩
    exact ⟨log', tree', rfl, hcourse.append hrest⟩

variable {c} in
theorem builds_of_same {h h' : Host} (hh : h.Same h') : c.Builds h h' := by
  obtain ⟨lines, rfl⟩ := hh
  exact ⟨lines, h.tree, rfl, .done h.tree⟩

variable {c} in
theorem Builds.grows {h h' : Host} (hh : c.Builds h h') : h.Grows h' := by
  obtain ⟨log, tree, rfl, hcourse⟩ := hh
  have hgrown := hcourse.imp (I := fun t => h.tree.Grows t) (fun ht hown => ⟨ht.trans hown.grows, hown⟩)
    (fun _ hno => hno.elim) (by simp) (.refl h.tree)
  exact ⟨hgrown.1, rfl⟩

theorem builds_ensure : c.ensure.Stays c.Builds :=
  c.stays_ensure builds_of_same fun {h t} ht => ⟨h.log, t, rfl, .own ht (.done t)⟩

end Cache

namespace Run

/-- The tree of a run goes its way from the cache being made ready. Others have their turn, if they have one, when it is
as it was then. -/
theorem steps_course (s : Settings) (entry : Path) (h : Host) :
    Course ((Cache.ofSettings s).Tends h.cwd) (fun _ _ => False) h.tree [] (ensured s h) ∧
    ∃ made, ((steps s entry).run h).2.calls = h.calls ++ made ∧
      Course ((Cache.ofSettings s).Tends h.cwd) (fun t t' => t = ensured s h ∧ t' = h.others t) (ensured s h) made
        ((steps s entry).run h).2.tree := by
  have hbuilds := (Follows.of_stays (Cache.ofSettings s).builds_ensure) h
  obtain ⟨log, tree, hstart, hcourse⟩ := hbuilds
  have htree : ensured s h = tree := by
    unfold ensured
    rw [hstart]
  rw [htree]
  refine ⟨hcourse, ?_⟩
  have hgoes := @follows_readied { h with log, tree } s entry { h with log, tree } ⟨rfl, .inr ⟨trivial, rfl, rfl⟩⟩
  show ∃ made, ((during .init (Cache.ofSettings s).ensure >>= fun _ => readied s entry).run h).2.calls = _ ∧
    Course _ _ _ made ((during .init (Cache.ofSettings s).ensure >>= fun _ => readied s entry).run h).2.tree
  rw [run_bind, show ((during .init (Cache.ofSettings s).ensure).run h).2 = _ from hstart]
  cases ((during .init (Cache.ofSettings s).ensure).run h).1 with
  | error halt => exact ⟨[], (List.append_nil _).symm, .done tree⟩
  | ok _ => exact hgoes.2

/-- The tree with which a run begins to look for its component. An entry that isn't a path has the run do nothing. -/
def begun (s : Settings) : Json → Host → Tree
  | .str _, h => ensured s h
  | _, h => h.tree

theorem run_course (s : Settings) (entry : Json) (h : Host) : ∃ r h' made,
    (runJson s entry).run h = (.ok r, h') ∧ h'.calls = h.calls ++ made ∧
    Course ((Cache.ofSettings s).Tends h.cwd) (fun _ _ => False) h.tree [] (begun s entry h) ∧
    Course ((Cache.ofSettings s).Tends h.cwd) (fun t t' => t = begun s entry h ∧ t' = h.others t) (begun s entry h) made
      h'.tree := by
  obtain ⟨r, h', hr, hsame⟩ := runJson_same s entry h
  cases entry with
  | str path =>
    obtain ⟨hbefore, made, hcalls, hcourse⟩ := steps_course s (Path.ofString path) h
    exact ⟨r, h', made, hr, hsame.alike.calls.trans hcalls, hbefore, hsame.tree ▸ hcourse⟩
  | _ =>
    have hcalls : h'.calls = h.calls ++ [] := by rw [List.append_nil, hsame.alike.calls]; rfl
    exact ⟨r, h', [], hr, hcalls, .done _, hsame.tree ▸ .done _⟩

end Run

end Bundler
