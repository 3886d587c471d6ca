import Bundler.Proofs.Repeating

/-!
# What the first pass finds out

Of the specifiers in an answer, those of packages count, and their names are never blank, so that it can be told of each
whether it's installed (`Package.exists_nameOf`). What comes back are the names that aren't, in increasing order and
each once (`Missing.find_exact`); the order of the specifiers doesn't matter, nor how often one is given.
-/

namespace Bundler

namespace Except

variable {ε α : Type}

/-- Where all can be told, a list keeps what is to be kept. -/
theorem filterM_of_ok {p : α → Except ε Bool} {b : α → Bool} {xs : List α} (h : ∀ x ∈ xs, p x = .ok (b x)) :
    xs.filterM p = .ok (xs.filter b) := by
  have haux : ∀ acc, xs.filterAuxM p acc = .ok ((xs.filter b).reverse ++ acc) := by
    induction xs with
    | nil => exact fun acc => rfl
    | cons x xs ih =>
      intro acc
      obtain ⟨hx, hxs⟩ := List.forall_mem_cons.1 h
      rw [List.filterAuxM, hx]
      refine (ih hxs _).trans ?_
      rw [List.filter_cons]
      cases b x <;> simp
  rw [List.filterM, haux]
  simp [pure, Except.pure, bind, Except.bind]

end Except

namespace Action

variable {α β : Type} {t : Tree} {cwd : Location}

theorem Reads.seenAt_bind {a : Action α} (ha : a.Reads) (f : α → Action β) :
    (a >>= f).seenAt t cwd = a.seenAt t cwd >>= fun x => (f x).seenAt t cwd := by
  unfold seenAt
  rw [run_bind, ha { tree := t, cwd }]
  cases a.seenAt t cwd <;> rfl

/-- A list of readings is a reading of a list. -/
theorem Reads.seenAt_filterM {p : α → Action Bool} (hp : ∀ x, (p x).Reads) (xs : List α) :
    (xs.filterM p).seenAt t cwd = xs.filterM fun x => (p x).seenAt t cwd := by
  -- that the rest only reads is what a bind asks for, so the induction carries it along
  have haux : ∀ acc, (xs.filterAuxM p acc).Reads ∧
      (xs.filterAuxM p acc).seenAt t cwd = xs.filterAuxM (fun x => (p x).seenAt t cwd) acc := by
    induction xs with
    | nil => exact fun acc => ⟨.pure acc, rfl⟩
    | cons x xs ih =>
      refine fun acc => ⟨(hp x).bind fun b => (ih _).1, ?_⟩
      rw [List.filterAuxM, (hp x).seenAt_bind, List.filterAuxM]
      exact congrArg _ (funext fun b => (ih _).2)
  rw [List.filterM, (haux []).1.seenAt_bind, (haux []).2]
  rfl

end Action

/-! ### Names of packages -/

namespace Package

open Text

theorem specifier_of_not_blank {s : String} (hs : allBlank s = false) : specifier s = .ok (trim s.toList) := by
  unfold specifier
  unfold allBlank at hs
  split
  · next h => simp [h] at hs
  · rfl

theorem isBare_eq_ok_true {s : String} :
    isBare s = .ok true ↔ trim s.toList ≠ [] ∧ isBareChars (trim s.toList) = true := by
  unfold isBare specifier
  cases trim s.toList with
  | nil => simp [bind, Except.bind]
  | cons c cs => simp [bind, Except.bind, pure, Except.pure]

/-- What there is to name of a specifier of a package doesn't begin with a slash. -/
theorem nameable_of_bare {s : String} (hbare : isBare s = .ok true) : Nameable s := by
  obtain ⟨hne, hchars⟩ := isBare_eq_ok_true.1 hbare
  obtain ⟨c, r, hr⟩ := List.exists_cons_of_ne_nil hne
  refine ⟨c, by simp [hr], ?_⟩
  rintro rfl
  simp [hr, isBareChars] at hchars

/-- A specifier of a package has a name, and the name has one. -/
theorem exists_nameOf {s : String} (hbare : isBare s = .ok true) : ∃ n m, nameOf s = .ok n ∧ nameOf n = .ok m := by
  obtain ⟨n, hn, -, hself, -⟩ := (nameable_of_bare hbare).exists_nameOf
  exact ⟨n, _, hn, hself⟩

end Package

/-! ### What is installed -/

/-- The file system refuses. -/
def Failure.OfSystem (f : Failure) : Prop :=
  ∃ e files, f = .os e files

theorem Action.entry_refused (p : Path) (h : Host) : wp ( entry? p) (fun _ _ => True) (fun f _ => f.OfSystem) h := by
  unfold entry?
  split
  · trivial
  · rw [wp_bind, wp_get]
    split
    · trivial
    · split
      · trivial
      · exact ⟨_, _, rfl⟩

theorem Action.isDir_refused (p : Path) (h : Host) : wp (isDir p) (fun _ _ => True) (fun f _ => f.OfSystem) h := by
  unfold isDir
  rw [wp_bind]
  refine wp_mono _ (entry_refused p h) (fun e h _ => ?_) fun _ _ hf => hf
  split <;> trivial

/-- It can be told of a name whether it's installed, unless the file system refuses to. -/
theorem Cache.seenAt_isInstalled_cases (c : Cache) {n m : String} (hn : Package.nameOf n = .ok m) (t : Tree)
    (cwd : Location) : (∃ b, (c.isInstalled n).seenAt t cwd = .ok b) ∨
      ∃ f, f.OfSystem ∧ (c.isInstalled n).seenAt t cwd = .error f := by
  obtain ⟨p, hp⟩ : ∃ p, c.packageDir n = .ok p := by
    unfold packageDir
    rw [hn]
    exact ⟨_, rfl⟩
  have hwp : wp (c.isInstalled n) (fun _ _ => True) (fun f _ => f.OfSystem) { tree := t, cwd } := by
    unfold isInstalled
    rw [hp, wp_bind, wp_ofExcept]
    exact Action.isDir_refused p _
  unfold Action.seenAt
  unfold wp at hwp
  rcases hr : (c.isInstalled n).run { tree := t, cwd } with ⟨f | b, h⟩
  · rw [hr] at hwp
    exact .inr ⟨f, hwp, rfl⟩
  · exact .inl ⟨b, rfl⟩

namespace Missing

/-- The name is that of a package which one of the specifiers names. -/
def Named (specifiers : List String) (n : String) : Prop :=
  ∃ s ∈ specifiers, Text.allBlank s = false ∧ Package.isBare s = .ok true ∧ Package.nameOf s = .ok n

/-- The specifiers that count. -/
def bares (ss : List String) : List String :=
  ss.filter fun s => !Text.allBlank s && Package.isBareChars (Text.trim s.toList)

theorem bare_eq (ss : List String) : bare ss = .ok (bares ss) := by
  unfold bare bares
  refine Except.filterM_of_ok fun s _ => ?_
  cases hs : Text.allBlank s with
  | true => rfl
  | false =>
    rw [if_neg (by simp)]
    unfold Package.isBare
    rw [Package.specifier_of_not_blank hs]
    rfl

theorem mem_bares {ss : List String} {s : String} :
    s ∈ bares ss ↔ s ∈ ss ∧ Text.allBlank s = false ∧ Package.isBare s = .ok true := by
  unfold bares
  rw [List.mem_filter, Bool.and_eq_true, Bool.not_eq_true']
  refine and_congr_right fun _ => and_congr_right fun hblank => ?_
  unfold Package.isBare
  rw [Package.specifier_of_not_blank hblank]
  exact ⟨congrArg _, Except.ok.inj⟩

/-- All names in an answer are told, each once. -/
theorem names_of_specifiers {answer : Json} {ss : List String} (h : specifiers answer = .ok ss) :
    ∃ all, names answer = .ok all ∧ all.Nodup ∧ ∀ n, n ∈ all ↔ Named ss n := by
  obtain ⟨ns, hns⟩ : ∃ ns, (bares ss).mapM Package.nameOf = .ok ns := Except.mapM_of_exists fun s hs => by
    obtain ⟨-, -, hbare⟩ := mem_bares.1 hs
    obtain ⟨n, -, hn, -⟩ := Package.exists_nameOf hbare
    exact ⟨n, hn⟩
  have hdistinct := Package.distinctNames_of_mapM hns
  obtain ⟨hnodup, hmem⟩ := Package.distinctNames_spec hdistinct
  refine ⟨_, ?_, hnodup, fun n => (hmem n).trans ?_⟩
  · unfold names
    rw [h]
    show (bare ss >>= fun bares => Package.distinctNames bares) = _
    rw [bare_eq]
    exact hdistinct
  · constructor
    · rintro ⟨s, hs, hn⟩
      obtain ⟨hss, hblank, hbare⟩ := mem_bares.1 hs
      exact ⟨s, hss, hblank, hbare, hn⟩
    · rintro ⟨s, hss, hblank, hbare, hn⟩
      exact ⟨s, mem_bares.2 ⟨hss, hblank, hbare⟩, hn⟩

theorem pairwise_lt_mergeSort {ns : List String} (h : ns.Nodup) :
    (ns.mergeSort fun a b => decide (a ≤ b)).Pairwise (· < ·) := by
  have htrans : ∀ a b c : String, decide (a ≤ b) = true → decide (b ≤ c) = true → decide (a ≤ c) = true :=
    fun a b c hab hbc => decide_eq_true (String.le_trans (of_decide_eq_true hab) (of_decide_eq_true hbc))
  have htotal : ∀ a b : String, (decide (a ≤ b) || decide (b ≤ a)) = true := fun a b => by
    simpa using String.le_total a b
  have hle := List.pairwise_mergeSort htrans htotal ns
  have hne : (ns.mergeSort fun a b => decide (a ≤ b)).Nodup := (List.mergeSort_perm ns _).nodup_iff.2 h
  refine (List.Pairwise.and hle hne).imp fun {a b} hab => ?_
  exact String.not_le.1 fun hba => hab.2 (String.le_antisymm (of_decide_eq_true hab.1) hba)

/-- Of names that can be looked for, those that aren't installed come back in increasing order. -/
theorem seenAt_absent (c : Cache) {t : Tree} {cwd : Location} {all : List String} (hnodup : all.Nodup)
    (hall : ∀ n ∈ all, ∃ b, (c.isInstalled n).seenAt t cwd = .ok b) :
    ∃ missing, (absent c all).seenAt t cwd = .ok missing ∧ missing.Pairwise (· < ·) ∧
      ∀ n, n ∈ missing ↔ n ∈ all ∧ (c.isInstalled n).seenAt t cwd = .ok false := by
  have hlook : ∀ n, (do return !(← c.isInstalled n) : Action Bool).Reads := fun n =>
    (c.reads_isInstalled n).bind fun _ => .pure _
  -- what is told of a name that can be looked for; for the others it doesn't matter
  let told (n : String) : Bool := ((c.isInstalled n).seenAt t cwd).toOption.getD true
  have htold : ∀ n ∈ all, (c.isInstalled n).seenAt t cwd = .ok (told n) := fun n hn => by
    obtain ⟨b, hb⟩ := hall n hn
    simp only [told, hb]
    rfl
  have hfilter : (all.filterM fun n => (do return !(← c.isInstalled n) : Action Bool)).seenAt t cwd =
      .ok (all.filter fun n => !told n) := by
    rw [Action.Reads.seenAt_filterM hlook]
    refine Except.filterM_of_ok fun n hn => ?_
    rw [(c.reads_isInstalled n).seenAt_bind, htold n hn]
    rfl
  refine ⟨_, ?_, pairwise_lt_mergeSort (hnodup.filter fun n => !told n), fun n => ?_⟩
  · unfold absent
    rw [(Action.Reads.filterM hlook all).seenAt_bind, hfilter]
    rfl
  · rw [List.mem_mergeSort, List.mem_filter]
    refine and_congr_right fun hn => ?_
    rw [htold n hn]
    simp

variable (w : Workplace) (entry : Path) {h h₁ : Host} {answer : Json} {ss : List String}

/-- What an accepted answer comes to. -/
theorem find_of_answer (hanswer : (w.runPass .discover (config w entry)).run h = (.ok answer, h₁))
    (hss : specifiers answer = .ok ss)
    (hlook : ∀ n, Named ss n → ∀ f, (w.cache.isInstalled n).seenAt h.tree h.cwd = .error f → ¬ f.OfSystem) :
    ∃ missing h', (find w entry).run h = (.ok missing, h') ∧ missing.Pairwise (· < ·) ∧
      (∀ n, n ∈ missing ↔ Named ss n ∧ (w.cache.isInstalled n).seenAt h.tree h.cwd = .ok false) ∧
      h'.tree = h.tree ∧ ∃ c, h'.calls = h.calls ++ [c] ∧ c.kind = .pass .discover := by
  -- the pass leaves tree and directory as they were, so what is looked for behind it could be looked for before it
  obtain ⟨c, hc, -⟩ := (wp_iff.1 (w.wp_runPass .discover (config w entry) h)).1 _ _ hanswer
  have hkind : c.kind = .pass .discover := hc.kind
  have htree : h₁.tree = h.tree := by rw [hc.tree, Call.tree_result_of_pass hkind, hc.momentTree]
  obtain ⟨all, hnames, hnodup, hall⟩ := names_of_specifiers hss
  have htold : ∀ n ∈ all, ∃ b, (w.cache.isInstalled n).seenAt h₁.tree h₁.cwd = .ok b := by
    intro n hn
    rw [htree, hc.cwd]
    obtain ⟨s, -, -, hbare, hs⟩ := (hall n).1 hn
    obtain ⟨n', m, hn', hm⟩ := Package.exists_nameOf hbare
    obtain rfl : n' = n := Except.ok.inj (hn'.symm.trans hs)
    refine (w.cache.seenAt_isInstalled_cases hm h.tree h.cwd).resolve_right fun ⟨f, hf, hseen⟩ => ?_
    exact hlook n' ((hall n').1 hn) f hseen hf
  obtain ⟨missing, hmissing, hsorted, hmem⟩ := seenAt_absent w.cache hnodup htold
  have hwp : wp (find w entry) (fun x h' => x = missing ∧ h'.tree = h.tree ∧ h'.calls = h.calls ++ [c])
      (fun _ _ => False) h := by
    unfold find
    rw [wp_bind, wp_of_run hanswer, wp_bind, wp_ofExcept, hnames]
    show wp (absent w.cache all >>= fun missing => _) _ _ h₁
    rw [wp_bind, (reads_absent w.cache all).wp_eq, hmissing]
    dsimp only
    split
    · exact ⟨rfl, htree, hc.calls⟩
    · exact ⟨rfl, htree, hc.calls⟩
  obtain ⟨_, h', hrun, rfl, htree', hcalls⟩ := exists_run_of_wp hwp
  refine ⟨_, h', hrun, hsorted, fun n => ?_, htree', c, hcalls, hkind⟩
  rw [hmem, hall, htree, hc.cwd]

theorem eq_of_pairwise_lt {xs ys : List String} (hx : xs.Pairwise (· < ·)) (hy : ys.Pairwise (· < ·))
    (h : ∀ n, n ∈ xs ↔ n ∈ ys) : xs = ys := by
  have hnodup : ∀ {zs : List String}, zs.Pairwise (· < ·) → zs.Nodup := fun hz =>
    List.Pairwise.imp (fun {a b} (hlt : a < b) (heq : a = b) => String.lt_irrefl b (heq ▸ hlt)) hz
  exact List.Perm.eq_of_pairwise (fun a b _ _ hab hba => absurd (String.lt_trans hab hba) (String.lt_irrefl a))
    hx hy ((List.perm_ext_iff_of_nodup (hnodup hx) (hnodup hy)).2 h)

/-- The first pass gives back, in increasing order, the names of the packages that an accepted answer names and that
aren't installed. It makes one call and changes nothing, and it gives back the same for the same specifiers in another
order. -/
theorem find_exact (hanswer : (w.runPass .discover (config w entry)).run h = (.ok answer, h₁))
    (hss : specifiers answer = .ok ss)
    (hlook : ∀ n, Named ss n → ∀ f, (w.cache.isInstalled n).seenAt h.tree h.cwd = .error f → ¬ f.OfSystem) :
    ∃ missing h', (find w entry).run h = (.ok missing, h') ∧ missing.Pairwise (· < ·) ∧
      (∀ n, n ∈ missing ↔ Named ss n ∧ (w.cache.isInstalled n).seenAt h.tree h.cwd = .ok false) ∧
      h'.tree = h.tree ∧ (∃ c, h'.calls = h.calls ++ [c] ∧ c.kind = .pass .discover) ∧
      ∀ entry' g answer' g₁ ss', (w.runPass .discover (config w entry')).run g = (.ok answer', g₁) →
        specifiers answer' = .ok ss' → g.tree = h.tree → g.cwd = h.cwd → (∀ s, s ∈ ss' ↔ s ∈ ss) →
        ((find w entry').run g).1 = .ok missing := by
  obtain ⟨missing, h', hrun, hsorted, hmem, htree, hcalls⟩ := find_of_answer w entry hanswer hss hlook
  refine ⟨missing, h', hrun, hsorted, hmem, htree, hcalls, ?_⟩
  intro entry' g answer' g₁ ss' hanswer' hss' htree' hcwd' hsame
  have hnamed : ∀ n, Named ss' n ↔ Named ss n := fun n =>
    exists_congr fun s => and_congr_left fun _ => hsame s
  have hlook' : ∀ n, Named ss' n → ∀ f, (w.cache.isInstalled n).seenAt g.tree g.cwd = .error f →
      ¬ f.OfSystem := by
    rw [htree', hcwd']
    exact fun n hn => hlook n ((hnamed n).1 hn)
  obtain ⟨others, g', hrun', hsorted', hmem', -⟩ := find_of_answer w entry' hanswer' hss' hlook'
  have heq : others = missing := eq_of_pairwise_lt hsorted' hsorted fun n => by
    rw [hmem', hmem, hnamed, htree', hcwd']
  rw [hrun', heq]

/-- A place to work. -/
def shelf : Workplace where
  cache := ⟨Path.ofString "/cache"⟩
  toolchain := { node := Path.ofString "/bin/node", npm := Path.ofString "/bin/npm", env := [] }
  settings := { cacheDir := Path.ofString "/cache" }

/-- Specifiers of all kinds. -/
def mixed : List String :=
  ["b@4", " ", "a/jsx", "./a", "Node:fs", "@s/p/q", " b/c"]

/-- A host with one package, on which they are found. -/
def importsMixed : Host where
  tree.entries := [(["bin"], .dir (.change 0)), (["bin", "node"], .file "" true (.change 0)),
    (["cache"], .dir (.change 0)), (["cache", "node_modules"], .dir (.change 0)),
    (["cache", "node_modules", "a"], .dir (.change 0))]
  outcomes.discover := [.ends 0 (some ("\x7b\"ok\": 1, \"specifiers\": " ++
    "[\"b@4\", \" \", \"a/jsx\", \"./a\", \"Node:fs\", \"@s/p/q\", \" b/c\"]\x7d")) "" [] .bySuccess]

theorem named_mixed {n : String} : Named mixed n ↔ n ∈ ["@s/p", "a", "b"] := by
  have hnames : ∀ s ∈ mixed, Text.allBlank s = false → (Package.isBare s).toOption = some true →
      (Package.nameOf s).toOption.getD "" ∈ ["@s/p", "a", "b"] := by decide +kernel
  have hspecifiers : ∀ n ∈ ["@s/p", "a", "b"], ∃ s ∈ mixed, Text.allBlank s = false ∧
      (Package.isBare s).toOption = some true ∧ (Package.nameOf s).toOption = some n := by decide +kernel
  constructor
  · rintro ⟨s, hs, hblank, hbare, hn⟩
    have hin := hnames s hs hblank (by rw [hbare]; rfl)
    rwa [hn] at hin
  · intro hn
    obtain ⟨s, hs, hblank, hbare, hname⟩ := hspecifiers n hn
    exact ⟨s, hs, hblank, Except.eq_ok_of_toOption hbare, Except.eq_ok_of_toOption hname⟩

/-- Two of the three packages aren't there. -/
theorem find_exact_mixed : ∃ answer h₁ h',
    (shelf.runPass .discover (config shelf (Path.ofString "/a.tsx"))).run importsMixed = (.ok answer, h₁) ∧
    specifiers answer = .ok mixed ∧
    (find shelf (Path.ofString "/a.tsx")).run importsMixed = (.ok ["@s/p", "b"], h') ∧
    h'.tree = importsMixed.tree := by
  have hpass : ((shelf.runPass .discover (config shelf (Path.ofString "/a.tsx"))).run importsMixed).1.toOption.bind
      (fun answer => (specifiers answer).toOption) = some mixed := by decide +kernel
  have htold : ∀ n ∈ ["@s/p", "a", "b"], (shelf.cache.isInstalled n).seenAt importsMixed.tree importsMixed.cwd =
      .ok (n == "a") := by
    have hlist : ∀ n ∈ ["@s/p", "a", "b"], ((shelf.cache.isInstalled n).seenAt importsMixed.tree
        importsMixed.cwd).toOption = some (n == "a") := by decide +kernel
    exact fun n hn => Except.eq_ok_of_toOption (hlist n hn)
  rcases hrun : (shelf.runPass .discover (config shelf (Path.ofString "/a.tsx"))).run importsMixed with
    ⟨f | answer, h₁⟩
  · rw [hrun] at hpass
    cases hpass
  rw [hrun] at hpass
  have hss : specifiers answer = .ok mixed := Except.eq_ok_of_toOption hpass
  have hlook : ∀ n, Named mixed n → ∀ f,
      (shelf.cache.isInstalled n).seenAt importsMixed.tree importsMixed.cwd = .error f → ¬ f.OfSystem := by
    intro n hn f hf
    rw [htold n (named_mixed.1 hn)] at hf
    cases hf
  obtain ⟨missing, h', hfind, hsorted, hmem, htree, -⟩ :=
    find_exact shelf (Path.ofString "/a.tsx") hrun hss hlook
  obtain rfl : missing = ["@s/p", "b"] := eq_of_pairwise_lt hsorted (by decide) fun n => by
    rw [hmem, named_mixed]
    constructor
    · rintro ⟨hn, hseen⟩
      rw [htold n hn] at hseen
      have hne : n ≠ "a" := by simpa using Except.ok.inj hseen
      simpa [hne] using hn
    · intro hn
      have hn' : n ∈ ["@s/p", "a", "b"] := by
        revert n
        decide
      rw [htold n hn']
      refine ⟨hn', congrArg Except.ok ?_⟩
      revert n
      decide
  exact ⟨answer, h₁, h', rfl, hss, hfind, htree⟩

end Missing

end Bundler
