import Mathlib.Logic.Function.Basic
import Mathlib.Logic.Relation
import Bundler.Proofs.Growing
import Bundler.Proofs.Installing
import Bundler.Proofs.Spelling

/-!
# Installers that share a cache

Any number of installers work on one cache, each with one install after the other. What an install does is cut into
phases (`Phase`), and a `Step` takes one of the installers from one phase to the next, or changes the tree. So the
steps of all installers come in any order, with changes in between. An undisturbed install is a chain of such steps
(`Covers`).

All that is known of the lock is that it has one holder. A package manager only runs for the holder, and what the
holder asks for was missing when it already had the lock. If nobody removes packages (`Sites.Keeps`), then what was
there while one package manager ran is asked for by no later one (`Past`).
-/

namespace Bundler

/-- Where each of several installers works. -/
structure Sites (ι : Type) where
  place : ι → Workplace
  cwd : ι → Location

namespace Sharing

inductive Phase where
  | idle
  /-- Some names are still to be looked at, of the others the missing ones were kept. -/
  | looking (locked : Bool) (rest kept : List String)
  | waiting (batch : List String)
  | running (batch : List String)
  /-- All is done but that the lock is given back. -/
  | leaving
  deriving DecidableEq

namespace Phase

def holds : Phase → Bool
  | looking locked _ _ => locked
  | running _ | leaving => true
  | _ => false

/-- Nothing is asked for. -/
def out (locked : Bool) : Phase :=
  if locked then leaving else idle

/-- Begins to look for what is missing. -/
def look (locked : Bool) (specifiers : List String) : Phase :=
  match Package.distinctNames specifiers with
  | .ok names => looking locked names []
  | .error _ => out locked

/-- Goes on after a look at a name. -/
def looked (locked : Bool) (n : String) (rest kept : List String) : Except Failure Bool → Phase
  | .ok pending => looking locked rest (if pending then kept ++ [n] else kept)
  | .error _ => out locked

theorem holds_out {locked : Bool} : (out locked).holds = locked := by
  cases locked <;> rfl

theorem holds_look {locked : Bool} {specifiers : List String} : (look locked specifiers).holds = locked := by
  unfold look
  split
  · rfl
  · exact holds_out

theorem holds_looked {locked : Bool} {n : String} {rest kept : List String} {r : Except Failure Bool} :
    (looked locked n rest kept r).holds = locked := by
  cases r with
  | ok pending => rfl
  | error f => exact holds_out

end Phase

structure State (ι : Type) where
  tree : Tree
  holder : Option ι := none
  phase : ι → Phase := fun _ => .idle
  installer : ι → Installer := fun _ => {}
  /-- The calls of package managers, each with the installer that made it. -/
  started : List (ι × Call) := []

variable {ι : Type}

namespace State

/-- A package manager runs for the installer. -/
def Running (s : State ι) (i : ι) : Prop :=
  ∃ batch, s.phase i = .running batch

variable [DecidableEq ι]

/-- An installer gets to another phase. -/
def turn (s : State ι) (i : ι) (p : Phase) : State ι :=
  { s with phase := Function.update s.phase i p }

/-- The lock is granted, and what is still missing is looked for. -/
def lock (s : State ι) (i : ι) (batch : List String) : State ι :=
  { s.turn i (.look true batch) with holder := some i }

def release (s : State ι) (i : ι) : State ι :=
  { s.turn i .idle with holder := none }

def change (s : State ι) (t : Tree) : State ι :=
  { s with tree := t }

/-- The package manager is called for a batch. -/
def start (s : State ι) (i : ι) (w : Workplace) (batch : List String) : State ι :=
  { s.turn i (.running batch) with
    installer := Function.update s.installer i ⟨(s.installer i).requested ++ batch, (s.installer i).calls + 1⟩
    started := s.started ++ [(i, Installer.batchCall w batch)] }

variable {s : State ι} {i j : ι}

theorem phase_turn_self (p : Phase) : (s.turn i p).phase i = p :=
  Function.update_self ..

theorem phase_turn_of_ne (h : j ≠ i) (p : Phase) : (s.turn i p).phase j = s.phase j :=
  Function.update_of_ne h ..

theorem turn_turn (p q : Phase) : (s.turn i p).turn i q = s.turn i q := by
  simp [turn]

theorem turn_phase : s.turn i (s.phase i) = s := by
  simp [turn]

end State

end Sharing

open Sharing

namespace Sites

variable {ι : Type} (S : Sites ι)

/-- Whether a name is pending, as an installer sees it at this moment. -/
def pendingAt (s : State ι) (i : ι) (n : String) : Except Failure Bool :=
  ((Installer.isPending (S.place i) n).run (s.installer i, { tree := s.tree, cwd := S.cwd i })).1

/-- A package is installed for an installer. -/
def Installed (i : ι) (t : Tree) (n : String) : Prop :=
  ((S.place i).cache.isInstalled n).seenAt t (S.cwd i) = .ok true

/-- All installers have the same packages. -/
def Shared (t : Tree) : Prop :=
  ∀ i j n, S.Installed i t n → S.Installed j t n

/-- A tree comes from another one without a package being removed. -/
structure Keeps (t t' : Tree) : Prop where
  stays : ∀ i n, S.Installed i t n → S.Installed i t' n
  shared : S.Shared t'

/-- The calls that were made later on are none for this package. -/
def Spared (n : String) (s s' : State ι) : Prop :=
  ∃ more, s'.started = s.started ++ more ∧ ∀ x ∈ more, n ∉ Installer.batchOf (S.place x.1) x.2

theorem isAbsolute_dirOf {c : Cache} (hc : c.root.isAbsolute = true) (n : String) : (c.dirOf n).isAbsolute = true := by
  have hjoin : ∀ {p q : Path}, p.isAbsolute = true → (p.join q).isAbsolute = true := by
    intro p q hp
    unfold Path.join
    split
    · assumption
    · exact hp
  have hfold : ∀ (names : List String) {p : Path}, p.isAbsolute = true →
      (names.foldl Path.child p).isAbsolute = true := by
    intro names
    induction names with
    | nil => exact fun hp => hp
    | cons c names ih => exact fun hp => ih (hjoin hp)
  exact hfold _ (hjoin hc)

variable {S}

/-- An absolute cache is the same one wherever an installer works. -/
theorem shared_of_absolute {c : Cache} (hplace : ∀ i, (S.place i).cache = c) (hc : c.root.isAbsolute = true)
    (t : Tree) : S.Shared t := by
  intro i j n hi
  unfold Installed at hi ⊢
  rw [hplace, Cache.isInstalled_iff] at hi ⊢
  obtain ⟨p, s, hp, hnul, hstat⟩ := hi
  refine ⟨p, s, hp, hnul, ?_⟩
  have habs : p.isAbsolute = true := by
    obtain ⟨m, -, hm⟩ := Except.exists_of_bind hp
    cases hm
    exact isAbsolute_dirOf hc m
  unfold Tree.stat Tree.locate Tree.startOf at hstat ⊢
  rw [if_pos habs] at hstat ⊢
  exact hstat

theorem keeps_of_grows {t t' : Tree} (hg : t.Grows t') (hshared : S.Shared t') : S.Keeps t t' :=
  ⟨fun i _ hn => (S.place i).cache.isInstalled_of_grows hg hn, hshared⟩

end Sites

namespace Sharing

variable {ι : Type} [DecidableEq ι] {S : Sites ι}

/-- One step of one of the installers, or a change of the tree by whomever. -/
inductive Step (S : Sites ι) (s : State ι) : State ι → Prop where
  | begins (i : ι) (specifiers : List String) (h : s.phase i = .idle) : Step S s (s.turn i (.look false specifiers))
  | looks (i : ι) (locked : Bool) (n : String) (rest kept : List String)
    (h : s.phase i = .looking locked (n :: rest) kept) :
    Step S s (s.turn i (.looked locked n rest kept (S.pendingAt s i n)))
  | stops (i : ι) (locked : Bool) (h : s.phase i = .looking locked [] []) : Step S s (s.turn i (.out locked))
  | waits (i : ι) (batch : List String) (h : s.phase i = .looking false [] batch) (hb : batch ≠ []) :
    Step S s (s.turn i (.waiting batch))
  /-- The lock isn't granted in time, or can't be. -/
  | givesUp (i : ι) (batch : List String) (h : s.phase i = .waiting batch) : Step S s (s.turn i .idle)
  | locks (i : ι) (batch : List String) (h : s.phase i = .waiting batch) (hfree : s.holder = none) :
    Step S s (s.lock i batch)
  | starts (i : ι) (batch : List String) (h : s.phase i = .looking true [] batch) (hb : batch ≠ []) :
    Step S s (s.start i (S.place i) batch)
  /-- Whatever came of the call. -/
  | ends (i : ι) (batch : List String) (h : s.phase i = .running batch) : Step S s (s.turn i .leaving)
  | releases (i : ι) (h : s.phase i = .leaving) : Step S s (s.release i)
  | changes (t : Tree) : Step S s (s.change t)

/-! ### An install is a chain of steps -/

abbrev Chain (S : Sites ι) : State ι → State ι → Prop :=
  Relation.ReflTransGen (Step S)

omit [DecidableEq ι] in
/-- A look reads the tree, and nothing else on the host. -/
theorem wp_isPending_eq {s : State ι} {i : ι} {h : Host} (htree : h.tree = s.tree) (hcwd : h.cwd = S.cwd i)
    (n : String) {Q : Bool → Installer × Host → Prop} {E : Failure → Installer × Host → Prop} :
    wp (Installer.isPending (S.place i) n) Q E (s.installer i, h) = match S.pendingAt s i n with
      | .ok b => Q b (s.installer i, h)
      | .error f => E f (s.installer i, h) := by
  have hrun : ∀ h : Host, (Installer.isPending (S.place i) n).run (s.installer i, h) =
      (if (s.installer i).requested.contains n then .ok false
        else (!·) <$> ((S.place i).cache.isInstalled n).seenAt h.tree h.cwd, (s.installer i, h)) := by
    intro h
    unfold Installer.isPending
    rw [run_bind]
    show (if _ then _ else _ : Installing Bool).run (s.installer i, h) = _
    split
    · rfl
    · have hlift : ∀ a : Action Bool, (liftM a : Installing Bool).run (s.installer i, h) =
          ((a.run h).1, (s.installer i, (a.run h).2)) := fun _ => rfl
      rw [run_bind, hlift, (S.place i).cache.reads_isInstalled n h]
      cases ((S.place i).cache.isInstalled n).seenAt h.tree h.cwd <;> rfl
  unfold wp Sites.pendingAt
  rw [hrun, hrun, htree, hcwd]
  cases (if (s.installer i).requested.contains n then _ else _ : Except Failure Bool) <;> rfl

theorem wp_looks {i : ι} {h : Host} (hcwd : h.cwd = S.cwd i) {locked : Bool} :
    ∀ (rest acc : List String) {s : State ι}, h.tree = s.tree →
    s.phase i = .looking locked rest acc.reverse →
    wp (rest.filterAuxM (Installer.isPending (S.place i)) acc)
      (fun kept t => t = (s.installer i, h) ∧ Chain S s (s.turn i (.looking locked [] kept.reverse)))
      (fun _ t => t = (s.installer i, h) ∧ Chain S s (s.turn i (.out locked))) (s.installer i, h)
  | [], acc, s, htree, hs => ⟨rfl, by rw [← hs, State.turn_phase]⟩
  | n :: rest, acc, s, htree, hs => by
    have hstep := Step.looks (S := S) _ _ _ _ _ hs
    rw [List.filterAuxM, wp_bind, wp_isPending_eq htree hcwd]
    cases hpending : S.pendingAt s i n with
    | error f =>
      rw [hpending] at hstep
      exact ⟨rfl, .single hstep⟩
    | ok b =>
      rw [hpending] at hstep
      have hphase : (s.turn i (.looked locked n rest acc.reverse (.ok b))).phase i =
          .looking locked rest (cond b (n :: acc) acc).reverse := by
        rw [State.phase_turn_self]
        cases b <;> simp [Phase.looked]
      have hrest := wp_looks (s := s.turn i (.looked locked n rest acc.reverse (.ok b))) hcwd rest _ htree hphase
      refine wp_mono _ hrest ?_ ?_
      · rintro kept t ⟨rfl, hchain⟩
        rw [State.turn_turn] at hchain
        exact ⟨rfl, .head hstep hchain⟩
      · rintro f t ⟨rfl, hchain⟩
        rw [State.turn_turn] at hchain
        exact ⟨rfl, .head hstep hchain⟩

section Install

variable {s : State ι} {i : ι} {h : Host} (htree : h.tree = s.tree) (hcwd : h.cwd = S.cwd i)

include htree hcwd in
theorem wp_pending_chain {locked : Bool} {specifiers : List String} (hs : s.phase i = .look locked specifiers) :
    wp (Installer.pending (S.place i) specifiers)
      (fun kept t => t = (s.installer i, h) ∧ Chain S s (s.turn i (.looking locked [] kept)))
      (fun _ t => t = (s.installer i, h) ∧ Chain S s (s.turn i (.out locked))) (s.installer i, h) := by
  unfold Phase.look at hs
  unfold Installer.pending
  rw [wp_bind, wp_ofExcept]
  cases hnames : Package.distinctNames specifiers with
  | error f =>
    rw [hnames] at hs
    have hs : s.phase i = .out locked := hs
    exact ⟨rfl, by rw [← hs, State.turn_phase]⟩
  | ok names =>
    rw [hnames] at hs
    dsimp only
    rw [List.filterM, wp_bind]
    exact wp_mono _ (wp_looks hcwd names [] htree hs) (fun kept t ht => ht) fun f t ht => ht

/-- What an undisturbed install leaves. -/
def State.after (s : State ι) (i : ι) (t : Installer × Host) (made : List (ι × Call)) : State ι :=
  { tree := t.2.tree, holder := none, phase := Function.update s.phase i .idle
    installer := Function.update s.installer i t.1, started := s.started ++ made }

/-- The steps lead to what the install leaves, with the same calls. -/
def Leads (S : Sites ι) (s : State ι) (i : ι) (calls : List Call) (t : Installer × Host) : Prop :=
  ∃ made new, Chain S s (s.after i t made) ∧ t.2.calls = calls ++ new ∧
    made.map (fun x => (x.1, x.2.argv)) = new.map fun c => (i, c.argv)

/-- Nothing was called, and the lock isn't held any more. -/
theorem leads_of_idle {s' : State ι} (hfree : s.holder = none) (hchain : Chain S s s') {h' : Host}
    (hs' : s' = (s.turn i .idle).change h'.tree) (hcalls : h'.calls = h.calls) :
    Leads S s i h.calls (s.installer i, h') := by
  refine ⟨[], [], ?_, by rw [hcalls, List.append_nil], rfl⟩
  have hafter : s.after i (s.installer i, h') [] = s' := by
    simp [hs', State.after, State.change, State.turn, hfree]
  rwa [hafter]

include htree

theorem leads_of_leaving (hchain : Chain S s (s.turn i .leaving)) : Leads S s i h.calls (s.installer i, h) := by
  refine ⟨[], [], hchain.tail ?_, (List.append_nil _).symm, rfl⟩
  have hafter : s.after i (s.installer i, h) [] = (s.turn i .leaving).release i := by
    simp [State.after, State.release, State.turn, htree]
  rw [hafter]
  exact .releases _ (State.phase_turn_self _)

omit htree in
theorem leads_of_call {batch : List String} (hb : batch ≠ []) (hchain : Chain S s (s.turn i (.looking true [] batch)))
    {t : Installer × Host} (hi : t.1 = ⟨(s.installer i).requested ++ batch, (s.installer i).calls + 1⟩) {c : Call}
    (hcalls : t.2.calls = h.calls ++ [c]) (hargv : c.argv = (Installer.batchCall (S.place i) batch).argv) :
    Leads S s i h.calls t := by
  refine ⟨[(i, Installer.batchCall (S.place i) batch)], [c], ?_, hcalls, by simp [hargv]⟩
  have hstart := hchain.tail (Step.starts _ _ (State.phase_turn_self _) hb)
  have hchanged := hstart.tail (Step.changes t.2.tree)
  have hended := hchanged.tail (Step.ends i batch (Function.update_self ..))
  have hreleased := hended.tail (Step.releases _ (State.phase_turn_self _))
  convert hreleased using 1
  simp [State.after, State.release, State.change, State.start, State.turn, hi]

include hcwd in
theorem wp_installLocked_chain {batch : List String} (hs : s.phase i = .look true batch) :
    wp (Installer.installLocked (S.place i) batch) (fun _ => Leads S s i h.calls) (fun _ => Leads S s i h.calls)
      (s.installer i, h) := by
  unfold Installer.installLocked
  rw [wp_bind]
  refine wp_mono _ (wp_pending_chain htree hcwd hs) ?_ ?_
  · rintro kept t ⟨rfl, hchain⟩
    rw [wp_ite]
    split
    · next hempty =>
      obtain rfl : kept = [] := List.isEmpty_iff.1 hempty
      have hstop := Step.stops (S := S) _ _ (State.phase_turn_self (s := s) (i := i) (.looking true [] []))
      rw [State.turn_turn] at hstop
      exact leads_of_leaving htree (hchain.tail hstop)
    · next hnonempty =>
      have hb : kept ≠ [] := by simpa using hnonempty
      rw [wp_bind, wp_update, wp_bind]
      refine wp_mono _ (Installer.wp_runBatch (S.place i) kept _) ?_ ?_
      · rintro _ t ⟨hi, c, hc, -⟩
        exact leads_of_call hb hchain hi hc.calls hc.argv
      · rintro f t ⟨hi, -, c, hc, -⟩
        exact leads_of_call hb hchain hi hc.calls hc.argv
  · rintro f t ⟨rfl, hchain⟩
    exact leads_of_leaving htree hchain

omit htree in
/-- The lock is granted when others have changed the tree, and what comes then is what comes of the install. -/
theorem leads_of_locked {kept : List String} (hfree : s.holder = none) (hchain : Chain S s (s.turn i (.waiting kept)))
    {h₁ : Host} (hcalls₁ : h₁.calls = h.calls) {t : Installer × Host}
    (hleads : Leads S ((s.change h₁.tree).lock i kept) i h₁.calls t) : Leads S s i h.calls t := by
  obtain ⟨made, new, hrest, hcalls, hsame⟩ := hleads
  refine ⟨made, new, ?_, by rw [hcalls, hcalls₁], hsame⟩
  have hlocked := (hchain.tail (Step.changes h₁.tree)).tail (Step.locks i kept (State.phase_turn_self _) hfree)
  have hlock : ((s.turn i (.waiting kept)).change h₁.tree).lock i kept = (s.change h₁.tree).lock i kept := by
    simp [State.lock, State.change, State.turn]
  have hafter : ((s.change h₁.tree).lock i kept).after i t made = s.after i t made := by
    simp [State.after, State.lock, State.change, State.turn]
  rw [hlock] at hlocked
  rw [hafter] at hrest
  exact hlocked.trans hrest

include hcwd in
theorem install_chain (hidle : s.phase i = .idle) (hfree : s.holder = none) (specifiers : List String) :
    wp (Installer.install (S.place i) specifiers) (fun _ => Leads S s i h.calls) (fun _ => Leads S s i h.calls)
      (s.installer i, h) := by
  have hbegin := Step.begins (S := S) i specifiers hidle
  have hunchanged : s.turn i .idle = (s.turn i .idle).change h.tree := by rw [htree]; rfl
  have hlook := wp_pending_chain (s := s.turn i (.look false specifiers)) htree hcwd (State.phase_turn_self _)
  unfold Installer.install
  rw [wp_bind]
  refine wp_mono _ hlook ?_ ?_
  · rintro kept t ⟨rfl, hchain⟩
    rw [State.turn_turn] at hchain
    have hlooked := hchain.head hbegin
    rw [wp_ite]
    split
    · next hempty =>
      obtain rfl : kept = [] := List.isEmpty_iff.1 hempty
      have hstopped := hlooked.tail (Step.stops _ _ (State.phase_turn_self _))
      rw [State.turn_turn] at hstopped
      exact leads_of_idle hfree hstopped hunchanged rfl
    · next hnonempty =>
      have hb : kept ≠ [] := by simpa using hnonempty
      have hwaiting := hlooked.tail (Step.waits _ _ (State.phase_turn_self _) hb)
      rw [State.turn_turn] at hwaiting
      rw [wp_bind, wp_lift]
      refine wp_mono _ ((S.place i).cache.quiet_acquire h) ?_ ?_
      · rintro _ h₁ hh
        have hleads := wp_installLocked_chain (S := S) (s := (s.change h₁.tree).lock i kept) (h := h₁) rfl
          (hh.cwd.trans hcwd) (State.phase_turn_self (s := s) _)
        exact wp_mono _ hleads (fun _ _ => leads_of_locked hfree hwaiting hh.calls) fun _ _ =>
          leads_of_locked hfree hwaiting hh.calls
      · rintro f h₁ ⟨hh, -⟩
        have hchanged := hwaiting.tail (Step.changes h₁.tree)
        have hgave := hchanged.tail (Step.givesUp i kept (State.phase_turn_self (s := s) _))
        exact leads_of_idle hfree hgave (by simp [State.change, State.turn]) hh.calls
  · rintro f t ⟨rfl, hchain⟩
    rw [State.turn_turn] at hchain
    exact leads_of_idle hfree (hchain.head hbegin) hunchanged rfl

end Install

/-- What an install does if nobody else does anything but to change the tree is a chain of steps. -/
def Covers (S : Sites ι) : Prop :=
  ∀ (s : State ι) (i : ι) (h : Host), h.tree = s.tree → h.cwd = S.cwd i → s.phase i = .idle → s.holder = none →
    ∀ specifiers, wp (Installer.install (S.place i) specifiers) (fun _ => Leads S s i h.calls)
      (fun _ => Leads S s i h.calls) (s.installer i, h)

theorem covers : Covers S :=
  fun _ _ _ htree hcwd hidle hfree specifiers => install_chain htree hcwd hidle hfree specifiers

/-! ### One package manager at a time -/

/-- Steps one after the other, of which none removes a package. -/
abbrev Runs (S : Sites ι) : State ι → State ι → Prop :=
  Relation.ReflTransGen fun s s' => Step S s s' ∧ S.Keeps s.tree s'.tree

/-- Who needs the lock has it. -/
def Orderly (s : State ι) : Prop :=
  ∀ i, (s.phase i).holds = true → s.holder = some i

theorem Orderly.turn {s : State ι} (hs : Orderly s) {i : ι} {p : Phase} (hp : p.holds = (s.phase i).holds) :
    Orderly (s.turn i p) := by
  intro j hj
  by_cases hji : j = i
  · subst hji
    rw [State.phase_turn_self, hp] at hj
    exact hs j hj
  · rw [State.phase_turn_of_ne hji] at hj
    exact hs j hj

theorem Orderly.step {s s' : State ι} (hs : Orderly s) (h : Step S s s') : Orderly s' := by
  cases h with
  | begins i specifiers h => exact hs.turn (by rw [h, Phase.holds_look]; rfl)
  | looks i locked n rest kept h => exact hs.turn (by rw [h, Phase.holds_looked]; rfl)
  | stops i locked h => exact hs.turn (by rw [h, Phase.holds_out]; rfl)
  | waits i batch h hb => exact hs.turn (by rw [h]; rfl)
  | givesUp i batch h => exact hs.turn (by rw [h]; rfl)
  | locks i batch h hfree =>
    -- nobody else holds the lock, since it's free
    intro j hj
    by_cases hji : j = i
    · rw [hji]
      rfl
    · have hold : s.holder = some j := hs j (by rwa [← State.phase_turn_of_ne hji (.look true batch)])
      rw [hfree] at hold
      cases hold
  | starts i batch h hb => exact hs.turn (by rw [h]; rfl)
  | ends i batch h => exact hs.turn (by rw [h]; rfl)
  | releases i h =>
    -- nobody else holds the lock, since the installer does
    have hi : s.holder = some i := hs i (by rw [h]; rfl)
    intro j hj
    by_cases hji : j = i
    · subst hji
      have hidle : (s.release j).phase j = .idle := State.phase_turn_self _
      rw [hidle] at hj
      cases hj
    · have hold : s.holder = some j := hs j (by rwa [← State.phase_turn_of_ne hji .idle])
      rw [hi] at hold
      exact absurd (Option.some.inj hold).symm hji
  | changes t => exact hs

theorem Orderly.runs {s s' : State ι} (hs : Orderly s) (h : Runs S s s') : Orderly s' := by
  induction h with
  | refl => exact hs
  | tail _ h ih => exact ih.step h.1

omit [DecidableEq ι] in
theorem Orderly.eq_of_running {s : State ι} (hs : Orderly s) {i j : ι} (hi : s.Running i) (hj : s.Running j) :
    i = j := by
  obtain ⟨batch, hi⟩ := hi
  obtain ⟨batch', hj⟩ := hj
  have hi := hs i (by rw [hi]; rfl)
  have hj := hs j (by rw [hj]; rfl)
  exact Option.some.inj (hi.symm.trans hj)

/-! ### What is there isn't asked for -/

omit [DecidableEq ι] in
theorem lacks_of_pendingAt {s : State ι} {i : ι} {n : String} (h : S.pendingAt s i n = .ok true) :
    Installer.Lacks (S.place i) s.tree (S.cwd i) n := by
  have hwp := Installer.wp_isPending (S.place i) n (s.installer i, { tree := s.tree, cwd := S.cwd i })
  unfold Sites.pendingAt at h
  unfold wp at hwp
  split at hwp
  · next b s' hr =>
    rw [hr] at h
    obtain rfl := Except.ok.inj h
    exact hwp.2.2
  · next f s' hr =>
    rw [hr] at h
    cases h

/-- The package was there, and since then nobody has kept its name for a batch that is asked for. -/
structure Past (S : Sites ι) (n : String) (s₀ s : State ι) : Prop where
  there : ∀ i, S.Installed i s.tree n
  unkept : ∀ i rest kept, s.phase i = .looking true rest kept → n ∉ kept
  spared : S.Spared n s₀ s

theorem Past.turn {n : String} {s₀ s : State ι} (hs : Past S n s₀ s) {i : ι} {p : Phase}
    (hp : ∀ rest kept, p = .looking true rest kept → n ∉ kept) : Past S n s₀ (s.turn i p) where
  there := hs.there
  unkept j rest kept hj := by
    by_cases hji : j = i
    · subst hji
      rw [State.phase_turn_self] at hj
      exact hp rest kept hj
    · rw [State.phase_turn_of_ne hji] at hj
      exact hs.unkept j rest kept hj
  spared := hs.spared

namespace Phase

theorem not_looking_of_out {locked locked' : Bool} {rest kept : List String} :
    out locked ≠ .looking locked' rest kept := by
  cases locked <;> exact nofun

theorem kept_of_look {locked locked' : Bool} {specifiers rest kept : List String}
    (h : look locked specifiers = .looking locked' rest kept) : kept = [] := by
  unfold look at h
  split at h
  · cases h
    rfl
  · exact absurd h not_looking_of_out

/-- What is kept after a look was kept before or is pending. -/
theorem mem_kept_of_looked {locked locked' : Bool} {m n : String} {rest rest' kept kept' : List String}
    {r : Except Failure Bool} (h : looked locked n rest kept r = .looking locked' rest' kept') (hm : m ∈ kept') :
    (m ∈ kept ∧ locked = locked') ∨ m = n ∧ r = .ok true := by
  cases r with
  | error f => exact absurd h not_looking_of_out
  | ok pending =>
    cases h
    cases pending with
    | false => exact .inl ⟨hm, rfl⟩
    | true =>
      rcases List.mem_append.1 hm with hm | hm
      · exact .inl ⟨hm, rfl⟩
      · exact .inr ⟨List.mem_singleton.1 hm, rfl⟩

end Phase

theorem Past.step {n : String} {s₀ s s' : State ι} (hs : Past S n s₀ s) (h : Step S s s')
    (hkeeps : S.Keeps s.tree s'.tree) : Past S n s₀ s' := by
  cases h with
  | begins i specifiers h => exact hs.turn fun rest kept hk => by simp [Phase.kept_of_look hk]
  | looks i locked m rest kept h =>
    refine hs.turn fun rest' kept' hk hn => ?_
    rcases Phase.mem_kept_of_looked hk hn with ⟨hn, rfl⟩ | ⟨rfl, hpending⟩
    · exact hs.unkept i _ kept h hn
    · have hlacks : ((S.place i).cache.isInstalled n).seenAt s.tree (S.cwd i) = .ok false :=
        lacks_of_pendingAt hpending
      rw [show ((S.place i).cache.isInstalled n).seenAt s.tree (S.cwd i) = .ok true from hs.there i] at hlacks
      cases hlacks
  | stops i locked h => exact hs.turn fun rest kept hk => absurd hk Phase.not_looking_of_out
  | waits i batch h hb => exact hs.turn nofun
  | givesUp i batch h => exact hs.turn nofun
  | locks i batch h hfree =>
    have hturn := hs.turn (i := i) (p := .look true batch) fun rest kept hk => by simp [Phase.kept_of_look hk]
    exact ⟨hturn.there, hturn.unkept, hturn.spared⟩
  | starts i batch h hb =>
    have hturn := hs.turn (i := i) (p := .running batch) nofun
    refine ⟨hturn.there, hturn.unkept, ?_⟩
    obtain ⟨more, hmore, hspared⟩ := hs.spared
    refine ⟨more ++ [(i, Installer.batchCall (S.place i) batch)], ?_, fun x hx => ?_⟩
    · show s.started ++ _ = _
      rw [hmore, List.append_assoc]
    · rcases List.mem_append.1 hx with hx | hx
      · exact hspared x hx
      · rw [List.mem_singleton.1 hx]
        exact hs.unkept i [] batch h
  | ends i batch h => exact hs.turn nofun
  | releases i h =>
    have hturn := hs.turn (i := i) (p := .idle) nofun
    exact ⟨hturn.there, hturn.unkept, hturn.spared⟩
  | changes t => exact ⟨fun i => hkeeps.stays i n (hs.there i), hs.unkept, hs.spared⟩

theorem Past.runs {n : String} {s₀ s s' : State ι} (hs : Past S n s₀ s) (h : Runs S s s') : Past S n s₀ s' := by
  induction h with
  | refl => exact hs
  | tail _ h ih => exact ih.step h.1 h.2

omit [DecidableEq ι] in
/-- While a package manager runs nobody else has a batch to ask for. -/
theorem Past.of_running {n : String} {s : State ι} (hs : Orderly s) (hshared : S.Shared s.tree) {i : ι}
    (hrunning : s.Running i) (hn : S.Installed i s.tree n) : Past S n s s where
  there j := hshared i j n hn
  unkept j rest kept hj := by
    obtain ⟨batch, hi⟩ := hrunning
    have hholds : s.holder = some j := hs j (by rw [hj]; rfl)
    rw [hs i (by rw [hi]; rfl)] at hholds
    cases hholds
    rw [hi] at hj
    cases hj
  spared := ⟨[], (List.append_nil _).symm, by simp⟩

theorem shared_of_runs {s s' : State ι} (hs : S.Shared s.tree) (h : Runs S s s') : S.Shared s'.tree := by
  induction h with
  | refl => exact hs
  | tail _ h _ => exact h.2.shared

/-- The steps are those of installs, and however they come, there is never more than one package manager that runs on
the cache. A package that is there while one runs, as when this one has made its directory, is in the arguments of none
that is started later. -/
theorem runs_in_turn {s₀ s : State ι} (hidle : ∀ i, s₀.phase i = .idle) (hshared : S.Shared s₀.tree)
    (h : Runs S s₀ s) :
    Covers S ∧ (∀ i j, s.Running i → s.Running j → i = j) ∧
    ∀ i n, s.Running i → S.Installed i s.tree n → ∀ s', Runs S s s' → S.Spared n s s' := by
  have hstart : Orderly s₀ := fun i hi => by rw [hidle i] at hi; cases hi
  have hs := hstart.runs h
  refine ⟨covers, fun i j => hs.eq_of_running, fun i n hrunning hn s' h' => ?_⟩
  exact ((Past.of_running hs (shared_of_runs hshared h) hrunning hn).runs h').spared

/-! ### Two that miss the same package -/

/-- A cache that has nothing yet. -/
def bare : State Bool where
  tree.entries := [(["cache"], .dir (.change 0))]

/-- Two installers in two directories, with the cache in the root. -/
def twoSites : Sites Bool where
  place _ := ⟨⟨Path.ofString "/cache"⟩, ⟨Path.ofString "/bin/node", Path.ofString "/bin/npm", []⟩,
    { cacheDir := Path.ofString "/cache" }⟩
  cwd i := if i then [] else ["home"]

/-- The same with the package that both want. -/
@[irreducible]
def supplied : Tree :=
  (bare.tree.mkdirAll [] (Path.ofString "/cache/node_modules/react")).1

theorem grows_supplied : bare.tree.Grows supplied := by
  unfold supplied
  exact bare.tree.grows_mkdirAll ..

theorem two_share (t : Tree) : twoSites.Shared t :=
  Sites.shared_of_absolute (fun _ => rfl) rfl t

section Two

variable {s₀ s s' : State Bool} {i : Bool} {n : String} {rest kept : List String} {locked : Bool}

theorem Runs.next (hs : Runs twoSites s₀ s) (h : Step twoSites s s') (hg : s.tree.Grows s'.tree) :
    Runs twoSites s₀ s' :=
  hs.tail ⟨h, Sites.keeps_of_grows hg (two_share _)⟩

theorem Runs.looks (hs : Runs twoSites s₀ s) (h : s.phase i = .looking locked (n :: rest) kept) {b : Bool}
    (hb : (twoSites.pendingAt s i n).toOption = some b) :
    Runs twoSites s₀ (s.turn i (.looking locked rest (if b then kept ++ [n] else kept))) := by
  have hstep := Step.looks (S := twoSites) _ _ _ _ _ h
  rw [Except.eq_ok_of_toOption hb] at hstep
  exact hs.next hstep (.refl _)

theorem Runs.change (hs : Runs twoSites s₀ s) {t : Tree} (hg : s.tree.Grows t) : Runs twoSites s₀ (s.change t) :=
  hs.next (.changes t) hg

end Two

/-- Both wait for the lock. -/
def bothWait : State Bool :=
  (bare.turn true (.waiting ["react"])).turn false (.waiting ["react"])

/-- One of them has called the package manager, which has made the directory. -/
def oneRuns : State Bool :=
  (((bothWait.lock true ["react"]).turn true (.looking true [] ["react"])).start true (twoSites.place true)
    ["react"]).change supplied

/-- The other one has the lock and has found the directory. -/
def otherFinds : State Bool :=
  (((oneRuns.turn true .leaving).release true).lock false ["react"]).turn false (.looking true [] [])

theorem runs_bothWait : Runs twoSites bare bothWait := by
  have h₁ : Runs twoSites bare _ := .next .refl (.begins true ["react"] rfl) (.refl _)
  have h₂ := h₁.looks (i := true) (n := "react") (b := true) rfl (by decide +kernel)
  have h₃ := h₂.next (.waits true ["react"] rfl (by simp)) (.refl _)
  rw [State.turn_turn, State.turn_turn] at h₃
  have h₄ := h₃.next (.begins false ["react"] rfl) (.refl _)
  have h₅ := h₄.looks (i := false) (n := "react") (b := true) rfl (by decide +kernel)
  have h₆ := h₅.next (.waits false ["react"] rfl (by simp)) (.refl _)
  rw [State.turn_turn, State.turn_turn] at h₆
  exact h₆

theorem runs_oneRuns : Runs twoSites bare oneRuns := by
  have h₁ := runs_bothWait.next (.locks true ["react"] rfl rfl) (.refl _)
  have h₂ := h₁.looks (i := true) (n := "react") (b := true) rfl (by decide +kernel)
  exact (h₂.next (.starts true ["react"] rfl (by simp)) (.refl _)).change grows_supplied

theorem runs_otherFinds : Runs twoSites oneRuns otherFinds := by
  have h₁ : Runs twoSites oneRuns _ := .next .refl (.ends true ["react"] rfl) (.refl _)
  have h₂ := h₁.next (.releases true rfl) (.refl _)
  have h₃ := h₂.next (.locks false ["react"] rfl rfl) (.refl _)
  exact h₃.looks (i := false) (n := "react") (b := false) rfl (by decide +kernel)

/-- Both miss the package, and it's asked for once. -/
theorem asked_for_by_one : bothWait.started = [] ∧ oneRuns.started.map Prod.fst = [true] ∧
    oneRuns.phase false = .waiting ["react"] ∧ otherFinds.phase false = .looking true [] [] ∧
    twoSites.Spared "react" oneRuns otherFinds := by
  have hthere : twoSites.Installed true oneRuns.tree "react" := Except.eq_ok_of_toOption (by decide +kernel)
  have hspared := (runs_in_turn (fun _ => rfl) (two_share _) runs_oneRuns).2.2 true "react" ⟨_, rfl⟩ hthere
  exact ⟨rfl, rfl, rfl, rfl, hspared otherFinds runs_otherFinds⟩

end Sharing

end Bundler
