import Bundler.Proofs.Following

/-!
# A component that isn't there

A run for a path at which no file is halts once the cache is ready, before anything is called or told. Its failure has
no type attached, so that it's typed by its message, and the path stands in the message. Nothing else of the message
can make a marker (`Apart`), and so the path alone decides: the failure is of the unknown type if and only if no marker
stands in the path (`Run.run_unfound`).
-/

namespace Bundler

namespace Text

/-- A text that begins with `front` can't hold `pat` but behind that. -/
def Apart (pat front : List Char) : Prop :=
  ∀ cs ∈ front.tails, cs = [] ∨ ¬cs <+: pat ∧ ¬pat <+: cs

instance (pat front : List Char) : Decidable (Apart pat front) :=
  List.decidableBAll _ _

theorem infix_append_of_apart {pat cs : List Char} : ∀ {front : List Char}, Apart pat front →
    (pat <:+: front ++ cs ↔ pat <:+: cs)
  | [], _ => .rfl
  | c :: front, hapart => by
    have ih : pat <:+: front ++ cs ↔ pat <:+: cs :=
      infix_append_of_apart fun ds hds => hapart ds (List.mem_cons_of_mem _ hds)
    obtain ⟨hfront, hpat⟩ := (hapart (c :: front) (by simp)).resolve_left (List.cons_ne_nil c front)
    rw [List.cons_append, List.infix_cons_iff, ih]
    refine ⟨fun h => h.resolve_left fun hprefix => ?_, .inr⟩
    rcases List.prefix_or_prefix_of_prefix hprefix (List.prefix_append (c :: front) cs) with h | h
    · exact hpat h
    · exact hfront h

theorem containsAny_append {front text : String} {markers : List String}
    (h : ∀ m ∈ markers, Apart m.toList front.toList) :
    containsAny (front ++ text) markers = containsAny text markers := by
  unfold containsAny
  rw [Bool.eq_iff_iff]
  simp only [List.any_eq_true, occurs_iff, String.toList_append]
  exact ⟨fun ⟨m, hm, hfound⟩ => ⟨m, hm, (infix_append_of_apart (h m hm)).1 hfound⟩,
    fun ⟨m, hm, hfound⟩ => ⟨m, hm, (infix_append_of_apart (h m hm)).2 hfound⟩⟩

end Text

namespace Rule

theorem typeOf_message (m : String) : typeOf table { message := m } =
    if Text.containsAny m Marker.unresolved then .resolve
    else if Text.containsAny m (Marker.packageManager ++ Marker.network) then .network
    else .unknown := by
  have hdiagnostics : ∀ ms, (Condition.diagnostic ms).holds { message := m } = false := fun _ => rfl
  have hanyText : ∀ ms, (Condition.anyText ms).holds { message := m } = Text.containsAny m ms := fun _ =>
    Bool.or_false _
  have hmessage : ∀ ms, (Condition.message ms).holds { message := m } = Text.containsAny m ms := fun _ => rfl
  simp only [typeOf, table, List.find?_cons, hdiagnostics, hanyText, hmessage]
  cases Text.containsAny m Marker.unresolved
  · cases Text.containsAny m (Marker.packageManager ++ Marker.network) <;> rfl
  · rfl

end Rule

namespace Tree

variable {t : Tree}

/-- What is wrong with a path to something. -/
def Misses (e : Errno) : Prop :=
  Action.meansAbsent e = true ∨ e = .nameTooLong

theorem misses_of_walkFrom {enter : Location → List String → Except Errno Location}
    (henter : ∀ dir cs e, enter dir cs = .error e → Misses e) : ∀ (cs : List String) {dir : Location} {e : Errno},
    t.walkFrom .followed enter dir cs = .error e → Misses e
  | [], _, _, h => by cases h
  | c :: cs, dir, e, h => by
    have ih := @misses_of_walkFrom enter henter cs
    unfold walkFrom at h
    split at h
    · cases h
      exact .inl rfl
    · split_ifs at h with hskip hup hmade hlong hkept
      · exact ih h
      · exact ih h
      · simp at hmade
      · cases h
        exact .inr rfl
      · simp at hkept
      · split at h
        · exact henter _ _ _ h
        · exact ih h
    · cases h
      exact .inl rfl

theorem misses_of_walk : ∀ (n : Nat) {dir : Location} {cs : List String} {e : Errno},
    t.walk .followed n dir cs = .error e → Misses e
  | 0, _, cs, _, h => misses_of_walkFrom (fun _ _ _ h => by cases h; exact .inl rfl) cs h
  | n + 1, _, cs, _, h => misses_of_walkFrom (fun _ _ _ h => misses_of_walk n h) cs h

theorem misses_of_stat {cwd : Location} {p : Path} {e : Errno} (h : t.stat cwd p = .error e) : Misses e := by
  unfold stat at h
  cases hl : t.locate cwd p with
  | error e' =>
    rw [hl] at h
    cases h
    unfold locate at hl
    split at hl
    · cases hl
      exact .inr rfl
    · exact misses_of_walk 40 hl
  | ok l =>
    rw [hl] at h
    change t.entryAt l = .error e at h
    unfold entryAt at h
    split at h
    · cases h
    · cases h
      exact .inl rfl

end Tree

namespace Action

theorem wp_isFile_of_none {h : Host} {q : Path} (hnone : ∀ text x s, h.tree.stat h.cwd q ≠ .ok (.file text x s)) :
    wp (isFile q)
      (fun b h' => b = false ∧ h' = h ∧ ('\x00' ∈ q.text.toList ∨ h.tree.stat h.cwd q ≠ .error .nameTooLong))
      (fun f h' => f = refused .nameTooLong q ∧ h' = h ∧
        '\x00' ∉ q.text.toList ∧ h.tree.stat h.cwd q = .error .nameTooLong) h := by
  unfold isFile entry?
  rw [wp_bind]
  split
  · next hnul => exact ⟨rfl, rfl, .inl (by simpa using hnul)⟩
  · next hnul =>
    have hnul : '\x00' ∉ q.text.toList := by simpa using hnul
    rw [wp_bind, wp_get]
    split
    · next e he =>
      rw [wp_pure]
      cases e with
      | file text x s => exact absurd he (hnone text x s)
      | _ => exact ⟨rfl, rfl, .inr (by simp [he])⟩
    · next e he =>
      split
      · next habsent =>
        refine ⟨rfl, rfl, .inr ?_⟩
        rw [he]
        rintro ⟨⟩
        cases habsent
      · next habsent =>
        obtain rfl := (Tree.misses_of_stat he).resolve_left habsent
        exact ⟨rfl, rfl, hnul, he⟩

end Action

namespace Run

/-- The absolute path that a path means for the bundler. -/
def Resolves (h : Host) (entry q : Path) : Prop :=
  ∃ p, entry.expandHome h.home = .ok p ∧ '\x00' ∉ p.text.toList ∧ h.tree.settle h.cwd p = .ok q

/-- What is said of a path at which no file is, with the text in it that stands for the path. -/
inductive Unfound (t : Tree) (cwd : Location) (q : Path) : String → String → Prop where
  | absent (h : '\x00' ∈ q.text.toList ∨ t.stat cwd q ≠ .error .nameTooLong) :
    Unfound t cwd q ("File not found: " ++ q.text) q.text
  | tooLong (h : '\x00' ∉ q.text.toList ∧ t.stat cwd q = .error .nameTooLong) :
    Unfound t cwd q ("[Errno 36] File name too long: " ++ Text.quoted q.text) (Text.quoted q.text)

/-- What stands before the path makes no marker. -/
theorem Unfound.typeOf {t : Tree} {cwd : Location} {q : Path} {message shown : String} (h : Unfound t cwd q message shown) :
    Rule.typeOf Rule.table { message } = Rule.typeOf Rule.table { message := shown } := by
  have happend : ∀ front : String, (∀ m ∈ Marker.unresolved, Text.Apart m.toList front.toList) →
      (∀ m ∈ Marker.packageManager ++ Marker.network, Text.Apart m.toList front.toList) → ∀ text,
      Rule.typeOf Rule.table { message := front ++ text } = Rule.typeOf Rule.table { message := text } := by
    intro front hunresolved hnetwork text
    rw [Rule.typeOf_message, Rule.typeOf_message, Text.containsAny_append hunresolved, Text.containsAny_append hnetwork]
  cases h with
  | absent => exact happend _ (by decide) (by decide) _
  | tooLong => exact happend _ (by decide) (by decide) _

theorem wp_entryFile {h : Host} {entry q : Path} (hq : Resolves h entry q)
    (hnone : ∀ text x s, h.tree.stat h.cwd q ≠ .ok (.file text x s)) : wp (entryFile entry) (fun _ _ => False)
    (fun f h' => h' = h ∧ f.explicitType = none ∧ f.diagnostics = [] ∧
      ∃ shown, Unfound h.tree h.cwd q f.report shown) h := by
  obtain ⟨p, hp, hnul, hsettle⟩ := hq
  have hresolve : wp (Action.resolve p) (fun r h' => r = q ∧ h' = h) (fun _ _ => False) h := by
    unfold Action.resolve Action.checked
    rw [if_neg (by simpa using hnul), wp_bind, wp_pure, wp_bind, wp_get, hsettle]
    exact ⟨rfl, rfl⟩
  unfold entryFile Action.expandHome
  rw [wp_bind, wp_bind, wp_get, hp, wp_ofExcept]
  dsimp only
  rw [wp_bind]
  refine wp_mono _ hresolve ?_ fun _ _ hno => hno.elim
  rintro r h' ⟨hr, hh⟩
  rw [hr, hh, wp_bind]
  refine wp_mono _ (Action.wp_isFile_of_none hnone) ?_ ?_
  · rintro _ _ ⟨rfl, rfl, habsent⟩
    exact ⟨rfl, rfl, rfl, _, .absent habsent⟩
  · rintro _ _ ⟨rfl, rfl, hlong⟩
    refine ⟨rfl, rfl, rfl, Text.quoted q.text, ?_⟩
    have hmessage : (Action.refused .nameTooLong q).message = "[Errno 36] File name too long: " ++ Text.quoted q.text := by
      show "[Errno " ++ toString 36 ++ "] " ++ "File name too long" ++ (": " ++ " -> ".intercalate [Text.quoted q.text]) = _
      rw [String.intercalate_singleton, ← String.append_assoc]
      rfl
    have hreport : (Action.refused .nameTooLong q).report = (Action.refused .nameTooLong q).message := by
      unfold Action.refused Failure.report at *
      dsimp only
      rw [hmessage, if_neg (by simp)]
    rw [hreport, hmessage]
    exact .tooLong hlong

theorem steps_unfound {s : Settings} {entry q : Path} {h h₁ : Host}
    (hensure : (Cache.ofSettings s).ensure.run h = (.ok (), h₁)) (hq : Resolves h₁ entry q)
    (hnone : ∀ text x s, h₁.tree.stat h₁.cwd q ≠ .ok (.file text x s)) : ∃ f h₂ shown,
    (steps s entry).run h = (.error ⟨f, .cacheReady⟩, h₂) ∧ h₁.Same h₂ ∧ f.explicitType = none ∧ f.diagnostics = [] ∧
    Unfound h₁.tree h₁.cwd q f.report shown := by
  have hsteps : wp (steps s entry) (fun _ _ => False) (fun halt h₂ => halt.stage = .cacheReady ∧ h₁.Same h₂ ∧
      halt.failure.explicitType = none ∧ halt.failure.diagnostics = [] ∧
      ∃ shown, Unfound h₁.tree h₁.cwd q halt.failure.report shown) h := by
    rw [steps_eq, wp_bind, wp_during, wp_of_run hensure, wp_bind, wp_advance, wp_bind, wp_during]
    refine wp_mono _ (wp_entryFile hq hnone) (fun _ _ hno => hno.elim) ?_
    rintro f _ ⟨rfl, htype, hdiagnostics, hunfound⟩
    exact ⟨rfl, .log h₁ _, htype, hdiagnostics, hunfound⟩
  unfold wp at hsteps
  split at hsteps
  · exact hsteps.elim
  · next halt h₂ hr =>
    obtain ⟨hstage, hsame, htype, hdiagnostics, shown, hunfound⟩ := hsteps
    exact ⟨halt.failure, h₂, shown, hstage ▸ hr, hsame, htype, hdiagnostics, hunfound⟩

/-- A run for a path at which no file is halts once the cache is ready, having called and told nothing. The type of its
failure is told by the path alone, and is the unknown one if and only if no marker stands there. -/
theorem run_unfound {s : Settings} {entry : String} {h h₁ : Host} {q : Path}
    (hensure : (Cache.ofSettings s).ensure.run h = (.ok (), h₁)) (hq : Resolves h₁ (Path.ofString entry) q)
    (hnone : ∀ text x s, h₁.tree.stat h₁.cwd q ≠ .ok (.file text x s)) : ∃ e h' shown,
    (runJson s (.str entry)).run h = (.ok (.failure e .cacheReady), h') ∧
    h'.calls = h.calls ∧ h'.events = h.events ∧ h'.stdout = h.stdout ∧
    (Cache.ofSettings s).Ready h'.tree h'.cwd ∧
    e.diagnostics = [] ∧ Unfound h₁.tree h₁.cwd q e.message shown ∧
    e.type = (if Text.containsAny shown Marker.unresolved then .resolve
      else if Text.containsAny shown (Marker.packageManager ++ Marker.network) then .network
      else .unknown) := by
  obtain ⟨f, h₂, shown, hsteps, hsame, htype, hdiagnostics, hunfound⟩ := steps_unfound hensure hq hnone
  have ho : outcome s (.str entry) h = (.error ⟨f, .cacheReady⟩, h₂) := hsteps
  obtain ⟨r, h', e, first, hr, hreports⟩ := halted_reports (reportable_of_outcome ho) h₂
  have hrun : (runJson s (.str entry)).run h = (.ok (.failure e .cacheReady), h') := by
    rw [runJson_run, ho]
    show (halted ⟨f, .cacheReady⟩).run h₂ = _
    rw [hr, hreports.result]
  obtain ⟨lines, hh'⟩ : h₁.Same h' := hsame.trans (hreports.logged ▸ .log h₂ _)
  have hready := ((wp_iff.1 ((Cache.ofSettings s).wp_ensure Host.Same.grows (fun ht => ⟨ht.grows, rfl⟩) h)).1 () h₁
    hensure).2
  obtain ⟨log, tree, rfl, -⟩ := (wp_iff.1 ((Cache.ofSettings s).builds_ensure h)).1 () h₁ hensure
  have he : e = ⟨Rule.typeOf Rule.table { message := f.report }, f.report, []⟩ := by
    have hclassified := hreports.classified h₂.limits.toReport
    unfold Envelope.ofFailure Failure.evidence at hclassified
    rw [htype, hdiagnostics] at hclassified
    exact (Except.ok.inj hclassified).symm
  refine ⟨e, h', shown, hrun, by rw [hh'], by rw [hh'], by rw [hh'], by rw [hh']; exact hready, by rw [he],
    by rw [he]; exact hunfound, ?_⟩
  rw [he, ← Rule.typeOf_message]
  exact hunfound.typeOf

section Called

/-- A host without a component, on which the cache can be made. -/
def vacant : Host where
  tree.entries := [(["p"], .dir (.change 0))]

/-- A run on that host calls nothing, and reports that it doesn't know the reason. -/
theorem vacant_unknown : ∃ e h',
    (runJson { cacheDir := Path.ofString "/cache" } (.str "/p/a.tsx")).run vacant = (.ok (.failure e .cacheReady), h') ∧
    h'.calls = [] ∧ e.type = .unknown ∧ Cache.Ready ⟨Path.ofString "/cache"⟩ h'.tree h'.cwd := by
  let s : Settings := { cacheDir := Path.ofString "/cache" }
  let h₁ : Host := ((Cache.ofSettings s).ensure.run vacant).2
  have hdone : ((Cache.ofSettings s).ensure.run vacant).1.toOption = some () := by decide +kernel
  have hensure : (Cache.ofSettings s).ensure.run vacant = (.ok (), h₁) := Prod.ext (Except.eq_ok_of_toOption hdone) rfl
  have hresolves : Resolves h₁ (Path.ofString "/p/a.tsx") (Path.ofString "/p/a.tsx") :=
    ⟨Path.ofString "/p/a.tsx", by rfl, by decide, by decide +kernel⟩
  have hstat : h₁.tree.stat h₁.cwd (Path.ofString "/p/a.tsx") = .error .noEntry := by decide +kernel
  obtain ⟨e, h', shown, hr, hcalls, -, -, hready, -, hunfound, htype⟩ := run_unfound hensure hresolves (by simp [hstat])
  refine ⟨e, h', hr, hcalls, ?_, hready⟩
  rw [htype]
  generalize e.message = message at hunfound
  cases hunfound with
  | absent => decide +kernel
  | tooLong hlong =>
    rw [hstat] at hlong
    cases hlong.2

/-- The type of the failure of a run for a path on that host. -/
def vacantType (entry : String) : Option ErrorType :=
  match ((runJson { cacheDir := Path.ofString "/cache" } (.str entry)).run vacant).1 with
  | .ok (.failure e .cacheReady) => some e.type
  | _ => none

/-- The markers are looked for in the path, too. -/
theorem marker_in_path_typed : vacantType "/p/E404.tsx" = some .resolve ∧
    vacantType "/p/ECONNRESET.tsx" = some .network ∧ vacantType "/p/a.tsx" = some .unknown := by
  decide +kernel

end Called

end Run

end Bundler
