import Mathlib.Tactic.SplitIfs
import Bundler.Proofs.Reading

/-!
# Trees that grow

A tree grows (`Tree.Grows`) if no directory goes and links neither come nor go. What led to a directory leads there
still (`Tree.stat_of_grows`), so that a package that was installed is installed (`Cache.isInstalled_of_grows`).
Making directories makes the tree grow, whatever comes of it, and so does a file that is written. There is nothing else
that the bundler itself does to a tree (`Cache.Tends`). To make the cache ready (`Cache.stays_ensure`), its manifest is
only written where nothing is, and its directory, which is made twice, is there the second time.
-/

namespace Bundler

namespace Tree

variable {t t' t'' : Tree} {l : Location}

theorem isDirAt_iff : t.isDirAt l = true ↔ ∃ s, t.get? l = some (.dir s) := by
  unfold isDirAt
  split
  · next s h => exact ⟨fun _ => ⟨s, h⟩, fun _ => rfl⟩
  · next h => exact ⟨nofun, fun ⟨s, hs⟩ => absurd hs (h s)⟩

structure Grows (t t' : Tree) : Prop where
  dirs : ∀ l, t.isDirAt l = true → t'.isDirAt l = true
  links : ∀ l target, t'.get? l = some (.link target) ↔ t.get? l = some (.link target)

theorem Grows.refl (t : Tree) : t.Grows t := ⟨fun _ h => h, fun _ _ => .rfl⟩

theorem Grows.trans (a : t.Grows t') (b : t'.Grows t'') : t.Grows t'' :=
  ⟨fun l h => b.dirs l (a.dirs l h), fun l target => (b.links l target).trans (a.links l target)⟩

/-! ### What makes a tree grow -/

theorem grows_put {e : Entry} (hold : ∀ target, t.get? l ≠ some (.link target)) (hnew : ∀ target, e ≠ .link target)
    (hdir : t.isDirAt l = true → ∃ s, e = .dir s) : t.Grows (t.put l e) := by
  by_cases hl : l = []
  · subst hl
    have hsame : ∀ m, (t.put [] e).get? m = t.get? m := by
      rintro (_ | ⟨c, m⟩)
      · rfl
      · exact get?_put_of_ne t (by simp) e
    refine ⟨fun m hm => ?_, fun m target => by rw [hsame]⟩
    rw [isDirAt_iff] at hm ⊢
    rwa [hsame]
  · refine ⟨fun m hm => ?_, fun m target => ?_⟩
    · by_cases hml : m = l
      · subst hml
        obtain ⟨s, rfl⟩ := hdir hm
        exact isDirAt_iff.2 ⟨s, get?_put_self t hl _⟩
      · rw [isDirAt_iff] at hm ⊢
        rwa [get?_put_of_ne t hml]
    · by_cases hml : m = l
      · subst hml
        rw [get?_put_self t hl]
        exact ⟨fun h => absurd (Option.some.inj h) (hnew target), fun h => absurd h (hold target)⟩
      · rw [get?_put_of_ne t hml]

/-- A change of the count is none of the tree. -/
theorem get?_changes (n : Nat) : ∀ l, ({ t with changes := n } : Tree).get? l = t.get? l
  | [] => rfl
  | _ :: _ => rfl

theorem grows_changes (n : Nat) : t.Grows { t with changes := n } :=
  ⟨fun m h => by rw [isDirAt_iff] at h ⊢; rwa [get?_changes], fun m target => by rw [get?_changes]⟩

/-- The mark of a change in a directory stands nowhere else. -/
theorem get?_stampDir_of_ne {dir : Location} (h : l ≠ dir) : (t.stampDir dir).get? l = t.get? l := by
  unfold stampDir
  dsimp only
  split
  · rw [get?_put_of_ne _ h, get?_changes]
  · exact get?_changes _ l

theorem dropLast_ne (h : l ≠ []) : l ≠ l.dropLast := fun heq => by
  have hlength := congrArg List.length heq
  have hpos := List.length_pos_iff.2 h
  rw [List.length_dropLast] at hlength
  omega

theorem grows_stampDir (dir : Location) : t.Grows (t.stampDir dir) := by
  unfold stampDir
  dsimp only
  split
  · next hdir =>
    obtain ⟨s, hs⟩ := isDirAt_iff.1 hdir
    refine (grows_changes _).trans (grows_put ?_ nofun fun _ => ⟨_, rfl⟩)
    rw [get?_changes, hs]
    exact nofun
  · exact grows_changes _

theorem grows_add {e : Stamp → Entry} (hl : ∀ target, t.get? l ≠ some (.link target))
    (he : ∀ s target, e s ≠ .link target) (hdir : t.isDirAt l = true → ∃ s, e t.next = .dir s) :
    t.Grows (t.add l e) :=
  (grows_put hl (he _) hdir).trans (grows_stampDir _)

theorem grows_mkdir {cwd : Location} {p : Path} (h : t.mkdir cwd p = .ok t') : t.Grows t' := by
  unfold mkdir at h
  cases hl : t.locate cwd p .kept with
  | error e => rw [hl] at h; cases h
  | ok l =>
    rw [hl] at h
    dsimp only [bind, Except.bind] at h
    split at h
    · cases h
    · next hnone =>
      cases h
      exact grows_add (by simp [hnone]) (fun _ _ => nofun) fun _ => ⟨_, rfl⟩

section MakeDirs

variable {R : Tree → Tree → Prop} [Chained R] {cwd : Location} {root : Path.Root}

theorem chained_finish {p : Path} {r : Except Errno Tree} (hr : ∀ t', r = .ok t' → R t t') :
    R t (mkdirUp.finish cwd t p r).1 := by
  unfold mkdirUp.finish
  split
  · exact hr _ rfl
  · exact Chained.refl t
  · split <;> exact Chained.refl t

/-- What holds of each directory that is made holds of all of them. They stay even if the last one can't be made. -/
theorem chained_mkdirUp : ∀ (up : List String) (t : Tree),
    (∀ {t t' : Tree} {up'}, up' <:+ up → t.mkdir cwd ⟨root, up'.reverse⟩ = .ok t' → R t t') →
    R t (t.mkdirUp cwd root up).1
  | [], t, hmkdir => chained_finish fun _ h => hmkdir (List.suffix_refl []) h
  | c :: up, t, hmkdir => by
    have hself : ∀ {t t' : Tree}, t.mkdir cwd ⟨root, (c :: up).reverse⟩ = .ok t' → R t t' :=
      hmkdir (List.suffix_refl _)
    unfold mkdirUp
    dsimp only
    split
    · have hup := chained_mkdirUp up t fun hsuffix => hmkdir (hsuffix.trans (List.suffix_cons c up))
      split
      · next t₁ hr =>
        rw [hr] at hup
        exact Chained.trans hup (chained_finish fun _ h => hself h)
      · exact hup
    · exact chained_finish fun _ h => hself h

/-- The directories of a path are made at its beginnings. -/
theorem chained_mkdirAll {p : Path} (t : Tree)
    (hmkdir : ∀ {t t' : Tree} {parts}, parts <+: p.parts → t.mkdir cwd ⟨p.root, parts⟩ = .ok t' → R t t') :
    R t (t.mkdirAll cwd p).1 :=
  chained_mkdirUp p.parts.reverse t fun hsuffix h => hmkdir (List.reverse_suffix.1 (by rwa [List.reverse_reverse])) h

end MakeDirs

instance : Chained Grows := ⟨.refl, .trans⟩

theorem grows_mkdirAll (t : Tree) (cwd : Location) (p : Path) : t.Grows (t.mkdirAll cwd p).1 :=
  t.chained_mkdirAll fun _ h => grows_mkdir h

/-! ### Walks -/

variable {last last' : LastPart} {enter enter' : Location → List String → Except Errno Location}

/-- A walk takes the same way in a tree that has grown, and also if links are to be followed at its end and it doesn't
end at one. -/
theorem walkFrom_of_grows (hg : t.Grows t')
    (hlast : last' = last ∨ last' = .followed ∧ (last = .kept → ∀ target, t.get? l ≠ some (.link target)))
    (henter : ∀ dir cs, enter dir cs = .ok l → enter' dir cs = .ok l) : ∀ (cs : List String) {dir},
    t.walkFrom last enter dir cs = .ok l → t'.walkFrom last' enter' dir cs = .ok l
  | [], dir, h => h
  | c :: cs, dir, h => by
    have ih := @walkFrom_of_grows hg hlast henter cs
    unfold walkFrom at h ⊢
    split at h
    · cases h
    · next s hs =>
      obtain ⟨s', hs'⟩ := isDirAt_iff.1 (hg.dirs dir (isDirAt_iff.2 ⟨s, hs⟩))
      have hother' : (∀ target, t.get? (dir ++ [c]) ≠ some (.link target)) →
          ∀ target, t'.get? (dir ++ [c]) ≠ some (.link target) := fun hother target htarget =>
        hother target ((hg.links _ target).1 htarget)
      have hmade' : ¬(decide (last = .made) && decide (cs = [""])) = true →
          ¬(decide (last' = .made) && decide (cs = [""])) = true := by
        rcases hlast with rfl | ⟨rfl, -⟩
        · exact id
        · simp
      have hkept' : ¬(cs.isEmpty && decide (last = .kept)) = true →
          ¬(cs.isEmpty && decide (last' = .kept)) = true := by
        rcases hlast with rfl | ⟨rfl, -⟩
        · exact id
        · simp
      rw [hs']
      dsimp only
      split_ifs at h with hskip hup hmade hlong hkept
      · rw [if_pos hskip]
        exact ih h
      · rw [if_neg hskip, if_pos hup]
        exact ih h
      · rw [if_neg hskip, if_neg hup, if_neg (hmade' hmade), if_neg hlong]
        split at h
        · next target htarget =>
          cases h
          rcases hlast with rfl | ⟨-, hlink⟩
          · rw [(hg.links _ target).2 htarget]
            exact if_pos hkept
          · have hlast : last = .kept := by simpa using (Bool.and_eq_true_iff.1 hkept).2
            exact absurd htarget (hlink hlast target)
        · next hother =>
          split
          · next target htarget => exact absurd htarget (hother' hother target)
          · exact ih h
      · rw [if_neg hskip, if_neg hup, if_neg (hmade' hmade), if_neg hlong]
        split at h
        · next target htarget =>
          rw [(hg.links _ target).2 htarget]
          dsimp only
          rw [if_neg (hkept' hkept)]
          exact henter _ _ h
        · next hother =>
          split
          · next target htarget => exact absurd htarget (hother' hother target)
          · exact ih h
    · cases h

theorem walk_of_grows (hg : t.Grows t')
    (hlast : last' = last ∨ last' = .followed ∧ (last = .kept → ∀ target, t.get? l ≠ some (.link target))) :
    ∀ (n : Nat) {dir cs}, t.walk last n dir cs = .ok l → t'.walk last' n dir cs = .ok l
  | 0, _, cs, h => walkFrom_of_grows hg hlast (fun _ _ h => by cases h) cs h
  | n + 1, _, cs, h => walkFrom_of_grows hg hlast (fun _ _ h => walk_of_grows hg hlast n h) cs h

theorem locate_of_grows (hg : t.Grows t')
    (hlast : last' = last ∨ last' = .followed ∧ (last = .kept → ∀ target, t.get? l ≠ some (.link target)))
    {cwd : Location} {p : Path} (h : t.locate cwd p last = .ok l) : t'.locate cwd p last' = .ok l := by
  unfold locate at h ⊢
  split at h
  · cases h
  · next hlong =>
    rw [if_neg hlong]
    exact walk_of_grows hg hlast 40 h

/-- Where links are followed to an end, there's an end if they aren't. -/
theorem walkFrom_kept (henter : ∀ dir cs l, enter dir cs = .ok l → ∃ l', enter' dir cs = .ok l') :
    ∀ (cs : List String) {dir l}, t.walkFrom .followed enter dir cs = .ok l →
      ∃ l', t.walkFrom .kept enter' dir cs = .ok l'
  | [], dir, _, _ => ⟨dir, rfl⟩
  | c :: cs, dir, l, h => by
    have ih := @walkFrom_kept henter cs
    unfold walkFrom at h ⊢
    split at h
    · cases h
    · split_ifs at h with hskip hup hmade hlong hkept
      · rw [if_pos hskip]
        exact ih h
      · rw [if_neg hskip, if_pos hup]
        exact ih h
      · simp at hkept
      · rw [if_neg hskip, if_neg hup, if_neg (by simp), if_neg hlong]
        split at h
        · split_ifs
          · exact ⟨_, rfl⟩
          · exact henter _ _ _ h
        · exact ih h
    · cases h

theorem walk_kept : ∀ (n : Nat) {dir cs l}, t.walk .followed n dir cs = .ok l → ∃ l', t.walk .kept n dir cs = .ok l'
  | 0, _, cs, _, h => walkFrom_kept (fun _ _ _ h => by cases h) cs h
  | n + 1, _, cs, _, h => walkFrom_kept (fun _ _ _ h => walk_kept n h) cs h

/-! ### What is there -/

variable {cwd : Location} {p : Path}

theorem stat_eq_ok_iff {e : Entry} : t.stat cwd p = .ok e ↔ ∃ l, t.locate cwd p = .ok l ∧ t.get? l = some e := by
  unfold stat
  cases hl : t.locate cwd p with
  | error f => simp [bind, Except.bind]
  | ok l =>
    show t.entryAt l = _ ↔ _
    unfold entryAt
    cases hget : t.get? l <;> simp [hget]

theorem stat_of_grows (hg : t.Grows t') {s : Stamp} (h : t.stat cwd p = .ok (.dir s)) :
    ∃ s', t'.stat cwd p = .ok (.dir s') := by
  obtain ⟨l, hl, hget⟩ := stat_eq_ok_iff.1 h
  obtain ⟨s', hs'⟩ := isDirAt_iff.1 (hg.dirs l (isDirAt_iff.2 ⟨s, hget⟩))
  exact ⟨s', stat_eq_ok_iff.2 ⟨l, locate_of_grows hg (.inl rfl) hl, hs'⟩⟩

/-- A file that is written takes the place of a file, or of nothing. -/
theorem write_cases {text : String} (h : t.write cwd p text = .ok t') : ∃ l, t.locate cwd p .made = .ok l ∧
    ((t.get? l = none ∧ t' = t.add l (.file text false)) ∨
      ∃ old x s, t.get? l = some (.file old x s) ∧ t' = { t with changes := t.changes + 1 }.put l (.file text x t.next)) := by
  unfold write at h
  cases hl : t.locate cwd p .made with
  | error e => rw [hl] at h; cases h
  | ok l =>
    rw [hl] at h
    dsimp only [bind, Except.bind] at h
    split at h
    · cases h
    · next old x s hget =>
      cases h
      exact ⟨l, rfl, .inr ⟨old, x, s, hget, rfl⟩⟩
    · cases h
    · next hget =>
      cases h
      exact ⟨l, rfl, .inl ⟨hget, rfl⟩⟩

theorem grows_write {text : String} (h : t.write cwd p text = .ok t') : t.Grows t' := by
  obtain ⟨l, -, ⟨hget, rfl⟩ | ⟨old, x, s, hget, rfl⟩⟩ := write_cases h
  · exact grows_add (by simp [hget]) (fun _ _ => nofun) fun hdir => by simp [isDirAt_iff, hget] at hdir
  · refine (grows_changes _).trans (grows_put ?_ (fun _ => nofun) fun hdir => ?_)
    · simp [get?_changes, hget]
    · simp [isDirAt_iff, get?_changes, hget] at hdir

theorem stat_of_write {text : String} (h : t.write cwd p text = .ok t') :
    ∃ x s, t'.stat cwd p = .ok (.file text x s) := by
  have hg := grows_write h
  obtain ⟨l, hl, hput⟩ := write_cases h
  have hl' : t'.locate cwd p = .ok l := locate_of_grows hg (.inr ⟨rfl, by simp⟩) hl
  have hne : l ≠ [] := by
    rintro rfl
    rcases hput with ⟨hget, -⟩ | ⟨_, _, _, hget, -⟩ <;> cases hget
  rcases hput with ⟨-, rfl⟩ | ⟨old, x, s, -, rfl⟩
  · exact ⟨false, t.next, stat_eq_ok_iff.2 ⟨l, hl', (get?_stampDir_of_ne (dropLast_ne hne)).trans (get?_put_self t hne _)⟩⟩
  · exact ⟨x, t.next, stat_eq_ok_iff.2 ⟨l, hl', get?_put_self _ hne _⟩⟩

/-- A directory that is there isn't made. -/
theorem mkdir_of_there {s : Stamp} (h : t.stat cwd p = .ok (.dir s)) : t.mkdir cwd p = .error .taken := by
  obtain ⟨l, hl, hget⟩ := stat_eq_ok_iff.1 h
  obtain ⟨l', hl'⟩ : ∃ l', t.locate cwd p .kept = .ok l' := by
    unfold locate at hl ⊢
    split at hl
    · cases hl
    · next hlong =>
      rw [if_neg hlong]
      exact walk_kept 40 hl
  unfold mkdir
  rw [hl']
  dsimp only [bind, Except.bind]
  cases hget' : t.get? l' with
  | some e => rfl
  | none =>
    -- nothing is there only if no link is, and then the walk that follows links ends there, too
    have hsame : t.locate cwd p = .ok l' := locate_of_grows (.refl t) (.inr ⟨rfl, by simp [hget']⟩) hl'
    rw [hl] at hsame
    cases hsame
    rw [hget] at hget'
    cases hget'

theorem stat_of_mkdir (h : t.mkdir cwd p = .ok t') : ∃ s, t'.stat cwd p = .ok (.dir s) := by
  have hg := grows_mkdir h
  unfold mkdir at h
  cases hl : t.locate cwd p .kept with
  | error e => rw [hl] at h; cases h
  | ok l =>
    rw [hl] at h
    dsimp only [bind, Except.bind] at h
    split at h
    · cases h
    · next hnone =>
      cases h
      have hne : l ≠ [] := by
        rintro rfl
        cases hnone
      have hdir : (t.put l (.dir t.next)).isDirAt l = true := isDirAt_iff.2 ⟨_, get?_put_self t hne _⟩
      obtain ⟨s, hs⟩ := isDirAt_iff.1 ((grows_stampDir l.dropLast).dirs l hdir)
      exact ⟨s, stat_eq_ok_iff.2 ⟨l, locate_of_grows hg (.inr ⟨rfl, by simp [hnone]⟩) hl, hs⟩⟩

theorem stat_of_finish {q : Path} {r : Except Errno Tree} (hr : ∀ t', r = .ok t' → ∃ s, t'.stat cwd q = .ok (.dir s))
    (h : mkdirUp.finish cwd t q r = (t', none)) : ∃ s, t'.stat cwd q = .ok (.dir s) := by
  unfold mkdirUp.finish at h
  split at h
  · cases h
    exact hr _ rfl
  · cases h
  · split at h
    · next s hs =>
      cases h
      exact ⟨s, hs⟩
    · cases h
    · cases h

/-- A directory that could be made with those above it is there. -/
theorem stat_of_mkdirUp {root : Path.Root} : ∀ {up : List String} {t t' : Tree},
    t.mkdirUp cwd root up = (t', none) → ∃ s, t'.stat cwd ⟨root, up.reverse⟩ = .ok (.dir s)
  | [], t, t', h => stat_of_finish (fun _ hr => stat_of_mkdir hr) h
  | c :: up, t, t', h => by
    unfold mkdirUp at h
    dsimp only at h
    split at h
    · split at h
      · exact stat_of_finish (fun _ hr => stat_of_mkdir hr) h
      · next hno => exact absurd h (hno t')
    · exact stat_of_finish (fun _ hr => stat_of_mkdir hr) h

theorem mkdirUp_of_there {root : Path.Root} {s : Stamp} : ∀ {up : List String},
    t.stat cwd ⟨root, up.reverse⟩ = .ok (.dir s) → t.mkdirUp cwd root up = (t, none) := by
  have hfinish : ∀ {q}, t.stat cwd q = .ok (.dir s) → mkdirUp.finish cwd t q (.error .taken) = (t, none) := by
    intro q hq
    unfold mkdirUp.finish
    rw [hq]
  intro up h
  have hmkdir := mkdir_of_there h
  cases up with
  | nil =>
    unfold mkdirUp
    rw [show t.mkdir cwd ⟨root, []⟩ = .error .taken from hmkdir]
    exact hfinish h
  | cons c up =>
    unfold mkdirUp
    dsimp only
    rw [hmkdir]
    exact hfinish h

theorem stat_of_mkdirAll (h : t.mkdirAll cwd p = (t', none)) : ∃ s, t'.stat cwd p = .ok (.dir s) := by
  have hstat := stat_of_mkdirUp h
  rwa [List.reverse_reverse] at hstat

/-- Nothing is made where the directory is there. -/
theorem mkdirAll_of_there {s : Stamp} (h : t.stat cwd p = .ok (.dir s)) : t.mkdirAll cwd p = (t, none) :=
  mkdirUp_of_there (by rwa [List.reverse_reverse])

end Tree

/-! ### Steps of the bundler -/

/-- The tree has grown, and the bundler is where it was. -/
structure Host.Grows (h h' : Host) : Prop where
  tree : h.tree.Grows h'.tree
  cwd : h'.cwd = h.cwd

instance : Chained Host.Grows :=
  ⟨fun h => ⟨.refl h.tree, rfl⟩, fun a b => ⟨a.tree.trans b.tree, b.cwd.trans a.cwd⟩⟩

theorem Host.Same.grows {h h' : Host} (hh : h.Same h') : h.Grows h' :=
  ⟨hh.tree ▸ .refl h.tree, hh.alike.cwd⟩

namespace Action

variable {α : Type}

theorem seenAt_eq_ok_iff {a : Action α} {t : Tree} {cwd : Location} {x : α} :
    a.seenAt t cwd = .ok x ↔ wp a (fun y _ => y = x) (fun _ _ => False) { tree := t, cwd } := by
  unfold seenAt wp
  rcases a.run { tree := t, cwd } with ⟨f | y, h⟩
  · exact ⟨fun h => (nomatch h), False.elim⟩
  · exact ⟨Except.ok.inj, congrArg Except.ok⟩

/-- What is found is what's there, and if that can't be told then nothing is. -/
theorem wp_entry (p : Path) (h : Host) : wp ( entry? p)
    (fun e h' => h' = h ∧ ∀ x, e = some x ↔ '\x00' ∉ p.text.toList ∧ h.tree.stat h.cwd p = .ok x)
    (fun f h' => h' = h ∧ f.Plain ∧ ∀ x, h.tree.stat h.cwd p ≠ .ok x) h := by
  unfold entry?
  split
  · next hnul => exact ⟨rfl, fun x => ⟨nofun, fun hx => absurd (by simpa using hnul) hx.1⟩⟩
  · next hnul =>
    rw [wp_bind, wp_get]
    split
    · next e he => exact ⟨rfl, fun x => by simp [he, show '\x00' ∉ p.text.toList by simpa using hnul]⟩
    · next e he =>
      split
      · exact ⟨rfl, fun x => by simp [he]⟩
      · exact ⟨rfl, plain_refused e p, fun x => by simp [he]⟩

theorem wp_isDir_iff {p : Path} {h : Host} : wp (isDir p) (fun b _ => b = true) (fun _ _ => False) h ↔
    '\x00' ∉ p.text.toList ∧ ∃ s, h.tree.stat h.cwd p = .ok (.dir s) := by
  have hentry := wp_iff.1 (wp_entry p h)
  unfold isDir
  rw [wp_bind]
  unfold wp
  rcases hr : ( entry? p).run h with ⟨f | e, h'⟩
  · exact ⟨False.elim, fun ⟨_, s, hs⟩ => (hentry.2 f h' hr).2.2 _ hs⟩
  · have he := (hentry.1 e h' hr).2
    cases e with
    | none => exact ⟨fun h => (nomatch h), fun ⟨hnul, s, hs⟩ => nomatch (he _).2 ⟨hnul, hs⟩⟩
    | some e =>
      obtain ⟨hnul, hstat⟩ := (he e).1 rfl
      cases e with
      | dir s => exact ⟨fun _ => ⟨hnul, s, hstat⟩, fun _ => rfl⟩
      | _ => exact ⟨fun h => (nomatch h), fun ⟨_, s, hs⟩ => by rw [hstat] at hs; cases hs⟩

theorem wp_changing {a : Location → Changing Unit} {Q : Unit → Host → Prop} {E : Failure → Host → Prop} {h : Host} :
    wp (changing a) Q E h =
      wp (a h.cwd) (fun x t => Q x { h with tree := t }) (fun f t => E f { h with tree := t }) h.tree := by
  have hrun : (changing a).run h = (((a h.cwd).run h.tree).1, { h with tree := ((a h.cwd).run h.tree).2 }) := rfl
  unfold wp
  rw [hrun]
  rcases (a h.cwd).run h.tree with ⟨_ | _, _⟩ <;> rfl

/-- What comes of making a directory: if nothing was refused, the directory is there. -/
theorem wp_makeDirs {R : Host → Host → Prop} [Chained R] {p : Path} {h : Host}
    (hmade : R h { h with tree := (h.tree.mkdirAll h.cwd p).1 }) : wp (makeDirs p)
    (fun _ h' => R h h' ∧ '\x00' ∉ p.text.toList ∧ ∃ s, h'.tree.stat h'.cwd p = .ok (.dir s))
    (fun f h' => R h h' ∧ f.Plain) h := by
  unfold makeDirs
  rw [wp_changing]
  unfold Change.makeDirs
  dsimp only
  split
  · exact ⟨Chained.refl h, Failure.plain_own rfl⟩
  · next hnul =>
    rw [wp_bind, wp_get]
    rcases hr : h.tree.mkdirAll h.cwd p with ⟨t', _ | ⟨e, place⟩⟩
    · rw [hr] at hmade
      exact ⟨hmade, by simpa using hnul, Tree.stat_of_mkdirAll hr⟩
    · rw [hr] at hmade
      exact ⟨hmade, Failure.plain_own rfl⟩

theorem makeDirs_of_there {p : Path} {h : Host} (hnul : '\x00' ∉ p.text.toList) {s : Stamp}
    (hs : h.tree.stat h.cwd p = .ok (.dir s)) : wp (makeDirs p) (fun _ h' => h' = h) (fun _ _ => False) h := by
  unfold makeDirs
  rw [wp_changing]
  unfold Change.makeDirs
  dsimp only
  rw [if_neg (by simpa using hnul)]
  show wp (get >>= fun t => _) _ _ h.tree
  rw [wp_bind, wp_get, Tree.mkdirAll_of_there hs]
  exact rfl

/-- What a text that is written does, if it isn't refused. -/
theorem wp_writeText (p : Path) (text : String) (h : Host) : wp (writeText p text)
    (fun _ h' => '\x00' ∉ p.text.toList ∧ ∃ t, h.tree.write h.cwd p text = .ok t ∧ h' = { h with tree := t })
    (fun f h' => h' = h ∧ f.Plain) h := by
  unfold writeText change observe
  rw [wp_bind, wp_bind]
  unfold checked
  split
  · exact ⟨rfl, Failure.plain_own rfl⟩
  · next hnul =>
    rw [wp_pure, wp_bind, wp_get]
    dsimp only
    split
    · next t ht => exact ⟨by simpa using hnul, t, ht, rfl⟩
    · exact ⟨rfl, plain_refused _ p⟩

end Action

namespace Cache

variable (c : Cache)

theorem parent_manifest : c.manifest.parent = c.root := by
  show Path.parent ⟨c.root.root, c.root.parts ++ ["package.json"]⟩ = c.root
  simp [Path.parent]

/-- What the bundler itself does to a tree. -/
inductive Tends (cwd : Location) : Tree → Tree → Prop where
  | root (t : Tree) : Tends cwd t (t.mkdirAll cwd c.root).1
  /-- The manifest is only written where nothing is. -/
  | manifest {t t' : Tree} {m : Json} (hnone : ∀ e, t.stat cwd c.manifest ≠ .ok e)
    (hm : Manifest.build Manifest.defaultName = .ok m) (h : t.write cwd c.manifest (Manifest.text m) = .ok t') :
    Tends cwd t t'
  | lock {t t' : Tree} (h : t.write cwd c.lock "" = .ok t') : Tends cwd t t'

variable {c} in
theorem Tends.grows {cwd : Location} {t t' : Tree} (h : c.Tends cwd t t') : t.Grows t' := by
  cases h with
  | root => exact t.grows_mkdirAll cwd c.root
  | manifest _ _ h => exact Tree.grows_write h
  | lock h => exact Tree.grows_write h

/-- The directory and the manifest are found. -/
structure Ready (t : Tree) (cwd : Location) : Prop where
  root : '\x00' ∉ c.root.text.toList ∧ ∃ s, t.stat cwd c.root = .ok (.dir s)
  manifest : '\x00' ∉ c.manifest.text.toList ∧ ∃ e, t.stat cwd c.manifest = .ok e

section Ensure

variable {R : Host → Host → Prop} [Chained R] (hlook : ∀ {h h'}, h.Same h' → R h h')
  (htend : ∀ {h : Host} {t}, c.Tends h.cwd h.tree t → R h { h with tree := t })

include hlook htend

/-- To make the cache ready nothing is done but for the cache, and if nothing was refused it is ready. -/
theorem wp_ensure (h : Host) : wp c.ensure (fun _ h' => R h h' ∧ c.Ready h'.tree h'.cwd)
    (fun f h' => R h h' ∧ f.Plain) h := by
  unfold ensure
  rw [wp_bind]
  refine wp_mono _ (Action.wp_makeDirs (htend (.root h.tree))) ?_ fun _ _ hf => hf
  rintro _ h₁ ⟨hh, hnul, s, hs⟩
  unfold Action.exists?
  rw [wp_bind, wp_bind]
  refine wp_mono _ (Action.wp_entry c.manifest h₁) ?_ fun f _ ⟨hsame, hf, _⟩ => ⟨hsame ▸ hh, hf⟩
  rintro e h₂ ⟨hsame, he⟩
  rw [hsame]
  cases e with
  | some e =>
    obtain ⟨hnul', hstat⟩ := (he e).1 rfl
    exact ⟨hh, ⟨hnul, s, hs⟩, hnul', e, hstat⟩
  | none =>
    have hlog : ∀ lines, R h { h₁ with log := lines } := fun lines => Chained.trans hh (hlook (.log h₁ lines))
    rw [wp_pure]
    show wp (Action.write .debug _ _ >>= fun _ => MonadExcept.ofExcept (Manifest.build _) >>= fun m =>
      Manifest.put c.manifest m) _ _ h₁
    rw [wp_bind, wp_write, wp_bind, wp_ofExcept]
    cases hm : Manifest.build Manifest.defaultName with
    | error f => exact ⟨hlog _, Manifest.plain_build _ f hm⟩
    | ok m =>
      unfold Manifest.put
      dsimp only
      rw [parent_manifest, wp_bind]
      refine wp_mono _ (Action.makeDirs_of_there hnul hs) ?_ fun _ _ hno => hno.elim
      rintro _ h₃ hsame
      rw [hsame]
      refine wp_mono _ (Action.wp_writeText _ _ _) ?_ fun f h₄ ⟨hsame, hf⟩ => ⟨hsame ▸ hlog _, hf⟩
      rintro _ h₄ ⟨hnul', t, ht, rfl⟩
      have hnone : ∀ x, h₁.tree.stat h₁.cwd c.manifest ≠ .ok x := fun x hx => nomatch (he x).2 ⟨hnul', hx⟩
      obtain ⟨x, s', hwritten⟩ := Tree.stat_of_write ht
      exact ⟨Chained.trans (hlog _) (htend (.manifest hnone hm ht)),
        ⟨hnul, Tree.stat_of_grows (Tree.grows_write ht) hs⟩, hnul', _, hwritten⟩

theorem stays_ensure : c.ensure.Stays R := fun h =>
  wp_mono _ (c.wp_ensure hlook htend h) (fun _ _ h₁ => h₁.1) fun _ _ h₁ => h₁

end Ensure

theorem grows_ensure : c.ensure.Stays Host.Grows :=
  c.stays_ensure Host.Same.grows fun h => ⟨h.grows, rfl⟩

/-- Nothing is done for a cache that is ready. -/
theorem ensure_of_ready {h : Host} (hready : c.Ready h.tree h.cwd) : c.ensure.run h = (.ok (), h) := by
  obtain ⟨⟨hnul, s, hs⟩, hnul', e, he⟩ := hready
  have hwp : wp c.ensure (fun _ h' => h' = h) (fun _ _ => False) h := by
    unfold ensure
    rw [wp_bind]
    refine wp_mono _ (Action.makeDirs_of_there hnul hs) ?_ fun _ _ hno => hno
    rintro _ h₁ rfl
    unfold Action.exists?
    rw [wp_bind, wp_bind]
    refine wp_mono _ (Action.wp_entry c.manifest h₁) ?_ fun f _ ⟨_, _, hnone⟩ => hnone e he
    rintro found h₂ ⟨rfl, hfound⟩
    rw [(hfound e).2 ⟨hnul', he⟩]
    exact rfl
  obtain ⟨_, h', hr, rfl⟩ := exists_run_of_wp hwp
  exact hr

/-- A package is installed if its path can be told and leads to a directory. -/
theorem isInstalled_iff {n : String} {t : Tree} {cwd : Location} : (c.isInstalled n).seenAt t cwd = .ok true ↔
    ∃ p s, c.packageDir n = .ok p ∧ '\x00' ∉ p.text.toList ∧ t.stat cwd p = .ok (.dir s) := by
  rw [Action.seenAt_eq_ok_iff]
  unfold isInstalled
  rw [wp_bind, wp_ofExcept]
  split
  · next p hp =>
    simp only [Action.wp_isDir_iff, hp]
    simp
  · next f hf => simp [hf]

theorem isInstalled_of_grows {n : String} {t t' : Tree} {cwd : Location} (hg : t.Grows t')
    (h : (c.isInstalled n).seenAt t cwd = .ok true) : (c.isInstalled n).seenAt t' cwd = .ok true := by
  rw [isInstalled_iff] at h ⊢
  obtain ⟨p, s, hp, hnul, hstat⟩ := h
  obtain ⟨s', hstat'⟩ := Tree.stat_of_grows hg hstat
  exact ⟨p, s', hp, hnul, hstat'⟩

end Cache

end Bundler
