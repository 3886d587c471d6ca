import Bundler.Proofs.Quiet

/-!
# Steps that only read

Many steps look at the tree from the working directory and do nothing else: `Action.Reads`. What such a step
comes to is told by tree and directory (`Action.seenAt`), so that it can be said of a moment that has passed.
Whether a package is installed is such a reading.
-/

namespace Bundler

variable {α β : Type}

namespace Action

/-- What a step comes to on a host of which only the tree and the working directory are known. -/
def seenAt (a : Action α) (t : Tree) (cwd : Location) : Except Failure α :=
  (a.run { tree := t, cwd }).1

/-- The step depends on nothing but the tree and the working directory, and changes nothing. -/
def Reads (a : Action α) : Prop :=
  ∀ h, a.run h = (a.seenAt h.tree h.cwd, h)

namespace Reads

theorem wp_eq {a : Action α} (ha : a.Reads) {Q : α → Host → Prop} {E : Failure → Host → Prop} {h : Host} :
    wp a Q E h = match a.seenAt h.tree h.cwd with
      | .ok x => Q x h
      | .error f => E f h := by
  unfold wp
  rw [ha h]
  cases a.seenAt h.tree h.cwd <;> rfl

/-- What a quiet reading finds is what it would find at that moment. -/
theorem wp_seenAt {a : Action α} (ha : a.Reads) (hq : a.Looks) (h : Host) :
    wp a (fun x h' => h' = h ∧ a.seenAt h.tree h.cwd = .ok x)
      (fun f h' => h' = h ∧ a.seenAt h.tree h.cwd = .error f ∧ f.Plain) h := by
  have hplain := hq h
  rw [ha.wp_eq] at hplain
  rw [ha.wp_eq]
  cases hr : a.seenAt h.tree h.cwd with
  | ok x => exact ⟨rfl, rfl⟩
  | error f =>
    rw [hr] at hplain
    exact ⟨rfl, rfl, hplain.2⟩

theorem pure (x : α) : (pure x : Action α).Reads := fun _ => rfl

theorem throw (f : Failure) : (throw f : Action α).Reads := fun _ => rfl

theorem ofExcept (r : Except Failure α) : (MonadExcept.ofExcept r : Action α).Reads := by
  intro h
  cases r <;> rfl

theorem bind {a : Action α} {f : α → Action β} (ha : a.Reads) (hf : ∀ x, (f x).Reads) : (a >>= f).Reads := by
  intro h
  unfold seenAt
  rw [run_bind, run_bind, ha h, ha { tree := h.tree, cwd := h.cwd }]
  cases a.seenAt h.tree h.cwd with
  | error e => rfl
  | ok x => exact hf x h

/-- A step that asks the host for its tree and its working directory only. -/
theorem get {f : Host → Action α} (hf : ∀ h, (f h).Reads) (hsame : ∀ h, f h = f { tree := h.tree, cwd := h.cwd }) :
    (MonadState.get >>= f).Reads := by
  intro h
  unfold seenAt
  rw [run_get_bind, run_get_bind, ← hsame]
  exact hf h h

theorem filterM {p : α → Action Bool} (hp : ∀ x, (p x).Reads) (xs : List α) : (xs.filterM p).Reads := by
  have haux : ∀ acc, (xs.filterAuxM p acc).Reads := by
    induction xs with
    | nil => exact fun acc => pure acc
    | cons x xs ih => exact fun acc => (hp x).bind fun b => ih _
  exact (haux []).bind fun ys => pure _

end Reads

theorem reads_entry (p : Path) : Reads <| entry? p := by
  unfold entry?
  split
  · exact .pure none
  · refine .get (fun h => ?_) fun _ => rfl
    split
    · exact .pure _
    · split
      · exact .pure none
      · exact .throw _

theorem reads_isDir (p : Path) : (isDir p).Reads :=
  (reads_entry p).bind fun e => by split <;> exact Reads.pure _

end Action

namespace Cache

theorem reads_isInstalled (c : Cache) (n : String) : (c.isInstalled n).Reads :=
  (Action.Reads.ofExcept _).bind fun p => Action.reads_isDir p

/-- The package is installed, as seen from a working directory. -/
def Has (c : Cache) (t : Tree) (cwd : Location) (n : String) : Prop :=
  (c.isInstalled n).seenAt t cwd = .ok true

/-- Whether a package is installed is a question of its name. -/
theorem isInstalled_congr (c : Cache) {m n : String} (h : Package.nameOf m = Package.nameOf n) :
    c.isInstalled m = c.isInstalled n := by
  unfold isInstalled packageDir
  rw [h]

end Cache

theorem Missing.reads_absent (c : Cache) (names : List String) : (absent c names).Reads :=
  (Action.Reads.filterM (fun n => (c.reads_isInstalled n).bind fun _ => Action.Reads.pure _) names).bind
    fun _ => Action.Reads.pure _

end Bundler
