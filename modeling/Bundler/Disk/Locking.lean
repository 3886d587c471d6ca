import Bundler.Disk.Change

/-!
# Locks

A lock is a file that one program at a time may hold. How a lock is taken isn't ours to say; `Locking` says what is
relied on: the directories above the file are made, the file is made or emptied, and the lock is either granted, and
then no other program holds it, or refused when the time for it is over. `Locking.standard` grants a lock whenever it
may.
-/

namespace Bundler

/-- What becomes of a tree when the lock of a file is asked for. -/
def Tree.LockAsked (cwd : Location) (p : Path) (t t' : Tree) : Prop :=
  ∃ r made, (Change.makeDirs cwd p.parent).run t = (r, made) ∧ (t' = made ∨ r = .ok () ∧ made.write cwd p "" = .ok t')

/-- The failures by which a lock isn't granted. -/
inductive Failure.Unlocked (p : Path) : Failure → Prop where
  | nul : Unlocked p .nulInPath
  | os (e : Errno) (files : List String) : Unlocked p (.os e files)
  | refused : Unlocked p (.lockRefused p.text)

/-- How the lock of a file is taken, from the working directory. -/
structure Locking where
  take : Location → Path → Changing Unit
  asks : ∀ cwd p (t : Tree), t.LockAsked cwd p ((take cwd p).run t).2
  refuses : ∀ cwd p t f t', (take cwd p).run t = (.error f, t') → f.Unlocked p
  grants : ∀ cwd p t t', (take cwd p).run t = (.ok (), t') → t'.isLocked cwd p = false

namespace Change

/-- A lock that another program holds isn't granted. -/
def grant (cwd : Location) (p : Path) : Changing Unit := do
  if (← get).isLocked cwd p then throw (.lockRefused p.text)

def openLock (cwd : Location) (p : Path) : Changing Unit := do
  step [p.text] (·.write cwd p "")
  grant cwd p

def takeLock (cwd : Location) (p : Path) : Changing Unit := do
  makeDirs cwd p.parent
  openLock cwd p

variable {cwd : Location} {p q : Path} {t t' : Tree} {f : Failure}

theorem run_get (k : Tree → Changing Unit) (t : Tree) : (get >>= k).run t = (k t).run t := rfl

theorem run_step (files : List String) (g : Tree → Except Errno Tree) (t : Tree) : (step files g).run t =
    if files.any fun s => s.toList.contains '\x00' then (.error .nulInPath, t)
    else match g t with
      | .ok t' => (.ok (), t')
      | .error e => (.error (.os e files), t) := by
  unfold step
  dsimp only
  split
  · rfl
  · show ((match g t with | .ok t' => set t' | .error e => throw (.os e files)) : Changing Unit).run t = _
    cases g t <;> rfl

theorem unlocked_makeDirs (p : Path) (h : (makeDirs cwd q).run t = (.error f, t')) : f.Unlocked p := by
  unfold makeDirs at h
  dsimp only at h
  split at h
  · cases h
    exact .nul
  · rw [run_get] at h
    split at h
    · cases h
    · cases h
      exact .os _ _

/-- What comes of taking a lock, by what came of making the directories above it. -/
inductive TakesLock (cwd : Location) (p : Path) : Except Failure Unit → Tree → Except Failure Unit → Tree → Prop where
  | unmade (f : Failure) (t : Tree) : TakesLock cwd p (.error f) t (.error f) t
  | unopened {f : Failure} (t : Tree) (hf : f.Unlocked p) : TakesLock cwd p (.ok ()) t (.error f) t
  | refused {t t' : Tree} (ht : t.write cwd p "" = .ok t') :
      TakesLock cwd p (.ok ()) t (.error (.lockRefused p.text)) t'
  | granted {t t' : Tree} (ht : t.write cwd p "" = .ok t') (hfree : t'.isLocked cwd p = false) :
      TakesLock cwd p (.ok ()) t (.ok ()) t'

theorem run_grant (t : Tree) : (grant cwd p).run t =
    if t.isLocked cwd p then (.error (.lockRefused p.text), t) else (.ok (), t) := by
  show (if t.isLocked cwd p then throw (.lockRefused p.text) else pure () : Changing Unit).run t = _
  split <;> rfl

theorem takesLock_openLock (made : Tree) :
    TakesLock cwd p (.ok ()) made ((openLock cwd p).run made).1 ((openLock cwd p).run made).2 := by
  have hrun : (openLock cwd p).run made = (ExceptT.bindCont (fun _ => grant cwd p)
      ((step [p.text] (·.write cwd p "")).run made).1).run ((step [p.text] (·.write cwd p "")).run made).2 := rfl
  rw [hrun, run_step]
  split
  · exact .unopened made .nul
  · split
    · next t' ht =>
      show TakesLock cwd p (.ok ()) made ((grant cwd p).run t').1 ((grant cwd p).run t').2
      rw [run_grant]
      cases hfree : t'.isLocked cwd p with
      | true => exact .refused ht
      | false => exact .granted ht hfree
    · next e _ => exact .unopened made (.os e _)

theorem takesLock (cwd : Location) (p : Path) (t : Tree) :
    TakesLock cwd p ((makeDirs cwd p.parent).run t).1 ((makeDirs cwd p.parent).run t).2
      ((takeLock cwd p).run t).1 ((takeLock cwd p).run t).2 := by
  have hrun : (takeLock cwd p).run t = (ExceptT.bindCont (fun _ => openLock cwd p)
      ((makeDirs cwd p.parent).run t).1).run ((makeDirs cwd p.parent).run t).2 := rfl
  rw [hrun]
  rcases (makeDirs cwd p.parent).run t with ⟨f | _, made⟩
  · exact .unmade f made
  · exact takesLock_openLock made

end Change

/-- A lock that is granted whenever no other program holds it. -/
def Locking.standard : Locking where
  take := Change.takeLock
  asks cwd p t := by
    have h := Change.takesLock cwd p t
    rcases hmade : (Change.makeDirs cwd p.parent).run t with ⟨r, made⟩
    rw [hmade] at h
    refine ⟨r, made, hmade, ?_⟩
    generalize ((Change.takeLock cwd p).run t).1 = r' at h
    cases h with
    | unmade => exact .inl rfl
    | unopened => exact .inl rfl
    | refused ht => exact .inr ⟨rfl, ht⟩
    | granted ht => exact .inr ⟨rfl, ht⟩
  refuses cwd p t f t' hr := by
    have h := Change.takesLock cwd p t
    rcases hmade : (Change.makeDirs cwd p.parent).run t with ⟨r, made⟩
    rw [hmade, hr] at h
    cases h with
    | unmade => exact Change.unlocked_makeDirs p hmade
    | unopened _ hf => exact hf
    | refused => exact .refused
  grants cwd p t t' hr := by
    have h := Change.takesLock cwd p t
    rw [hr] at h
    generalize ((Change.makeDirs cwd p.parent).run t).1 = r, ((Change.makeDirs cwd p.parent).run t).2 = made at h
    cases h with
    | granted _ hfree => exact hfree

end Bundler
