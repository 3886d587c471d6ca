import Bundler.Proofs.Reporting
import Bundler.Proofs.Spelling

/-!
# What the package manager takes for an option

The names of a batch stand at the end of the package manager's arguments, and nothing before them says that the
options are over. A name that begins with a dash is an option to it (`Text.Dashed`). A name begins as the specifier
does that it's taken from, blanks aside, and a specifier that begins with a dash is one of a package as good as any
other. So whatever imports the component has decides what options there are (`Run.run_arguments`).
-/

namespace Bundler

namespace Text

def Dashed (cs : List Char) : Prop :=
  cs.head? = some '-'

instance (cs : List Char) : Decidable (Dashed cs) :=
  inferInstanceAs (Decidable (cs.head? = some '-'))

end Text

namespace Package

open Text

theorem head?_nameChars {cs : List Char} {c : Char} (h : (nameChars cs).head? = some c) : cs.head? = some c := by
  obtain ⟨rest, hrest, -⟩ := exists_cut cs
  rw [hrest, List.head?_append, h]
  rfl

theorem Dashed.nameChars {cs : List Char} (h : Dashed cs) : Dashed (nameChars cs) := by
  obtain ⟨r, rfl⟩ := List.head?_eq_some_iff.1 h
  rfl

/-- The name of a name begins with a dash exactly if the specifier does. -/
theorem dashed_iff {x m n : String} (hm : nameOf x = .ok m) (hn : nameOf m = .ok n) :
    Dashed n.toList ↔ Dashed (trim x.toList) := by
  obtain ⟨-, rfl⟩ := nameOf_eq_ok_iff.1 hm
  obtain ⟨hne, rfl⟩ := nameOf_eq_ok_iff.1 hn
  rw [String.toList_ofList] at hne ⊢
  rw [String.toList_ofList]
  constructor
  · intro h
    have htrim := head?_nameChars h
    -- the first character isn't a blank, so that it's there before anything is trimmed
    cases hfirst : (nameChars (trim x.toList)).head? with
    | none =>
      rw [List.head?_eq_none_iff.1 hfirst] at hne
      exact absurd rfl hne
    | some c =>
      have hx := head?_nameChars hfirst
      rw [head?_trim hfirst (not_blank_of_head?_trim hx)] at htrim
      exact hx.trans htrim
  · exact fun h => Dashed.nameChars (head?_trim (Dashed.nameChars h) (by decide))

end Package

/-- What a list keeps are elements of it, each of which could be told, and those that were to be kept. -/
theorem Except.of_filterM {ε α : Type} {p : α → Except ε Bool} {xs ys : List α} (h : xs.filterM p = .ok ys) :
    ys ⊆ xs ∧ ∀ x ∈ xs, ∃ b, p x = .ok b ∧ (b = true → x ∈ ys) := by
  have haux : ∀ (xs acc : List α) {ys}, xs.filterAuxM p acc = .ok ys →
      (∀ y ∈ ys, y ∈ xs ∨ y ∈ acc) ∧ acc ⊆ ys ∧ ∀ x ∈ xs, ∃ b, p x = .ok b ∧ (b = true → x ∈ ys) := by
    intro xs
    induction xs with
    | nil =>
      intro acc ys h
      cases h
      exact ⟨fun y hy => .inr hy, List.Subset.refl acc, by simp⟩
    | cons x xs ih =>
      intro acc ys h
      obtain ⟨b, hb, h⟩ := Except.exists_of_bind h
      obtain ⟨hin, hacc, hkept⟩ := ih _ h
      cases b with
      | false =>
        refine ⟨fun y hy => (hin y hy).imp_left (List.mem_cons_of_mem x), hacc, ?_⟩
        exact List.forall_mem_cons.2 ⟨⟨false, hb, nofun⟩, hkept⟩
      | true =>
        obtain ⟨hx, hacc⟩ := List.cons_subset.1 hacc
        refine ⟨fun y hy => ?_, hacc, List.forall_mem_cons.2 ⟨⟨true, hb, fun _ => hx⟩, hkept⟩⟩
        rcases hin y hy with hy | hy
        · exact .inl (List.mem_cons_of_mem x hy)
        · rcases List.mem_cons.1 hy with rfl | hy
          · exact .inl (List.mem_cons_self ..)
          · exact .inr hy
  obtain ⟨kept, hkept, h⟩ := Except.exists_of_bind h
  cases h
  obtain ⟨hin, -, hall⟩ := haux xs [] hkept
  refine ⟨fun y hy => by simpa using hin y (List.mem_reverse.1 hy), fun x hx => ?_⟩
  obtain ⟨b, hb, hkeep⟩ := hall x hx
  exact ⟨b, hb, fun h => List.mem_reverse.2 (hkeep h)⟩

namespace Missing

theorem subset_of_absent {cache : Cache} {names missing : List String} {t : Tree} {cwd : Location}
    (h : (absent cache names).seenAt t cwd = .ok missing) : missing ⊆ names := by
  have hwp : wp (absent cache names) (fun missing _ => missing ⊆ names) (fun _ _ => True) { tree := t, cwd } := by
    have hany : ∀ n (h : Host), True → wp (do return !(← cache.isInstalled n)) (fun _ _ => True ∧ True)
        (fun _ _ => True ∧ True) h := fun _ _ _ =>
      wp_of_forall _ (fun _ _ => ⟨trivial, trivial⟩) fun _ _ => ⟨trivial, trivial⟩
    unfold absent
    rw [wp_bind]
    refine wp_mono _ (wp_filterM hany names trivial) ?_ fun _ _ _ => trivial
    rintro kept h ⟨-, hsub, -⟩ n hn
    exact hsub.subset (List.mem_mergeSort.1 hn)
  exact (wp_iff.1 hwp).1 missing _ (Prod.ext h rfl)

/-- The specifiers that a call of the first pass gives. -/
def given (c : Call) : Except Failure (List String) := do
  specifiers (← c.answer .discover)

/-- What the first pass gives back are names of specifiers. -/
theorem exists_of_mem_returned {cache : Cache} {c : Call} {missing : List String}
    (h : returned cache c = .ok missing) : ∃ specifiers, given c = .ok specifiers ∧
      ∀ n ∈ missing, ∃ x ∈ specifiers, Package.nameOf x = .ok n := by
  obtain ⟨answer, hanswer, h⟩ := Except.exists_of_bind h
  obtain ⟨all, hall, h⟩ := Except.exists_of_bind h
  obtain ⟨specifiers, hspecifiers, hall⟩ := Except.exists_of_bind hall
  obtain ⟨bares, hbares, hall⟩ := Except.exists_of_bind hall
  refine ⟨specifiers, by unfold given; rw [hanswer]; exact hspecifiers, fun n hn => ?_⟩
  obtain ⟨x, hx, hname⟩ := ((Package.distinctNames_spec hall).2 n).1 (subset_of_absent h hn)
  exact ⟨x, (Except.of_filterM hbares).1 hx, hname⟩

end Missing

theorem not_dashed_of_base {styles : Bool} : ∀ a ∈ basePackages styles, ¬Text.Dashed (Text.trim a.toList) := by
  cases styles <;> decide

namespace Run

/-- Whatever becomes of a run, there is a trace of what it did. -/
theorem run_trace (s : Settings) (entry : Json) (h : Host) : ∃ r h' made kinds,
    (runJson s entry).run h = (.ok r, h') ∧ Trace (Makes s h) (Cache.ofSettings s) h made kinds h' := by
  have hsteps : ∃ made kinds, Trace (Makes s h) (Cache.ofSettings s) h made kinds (outcome s entry h).2 := by
    cases entry with
    | str entry =>
      have hwp := wp_iff.1 (wp_steps s (Path.ofString entry) h)
      rcases ho : outcome s (.str entry) h with ⟨halt | x, h₁⟩
      · obtain ⟨-, -, base, lacking, made, ht, -⟩ := hwp.2 halt h₁ ho
        exact ⟨made, _, ht⟩
      · obtain ⟨base, lacking, made, ht, -⟩ := hwp.1 x h₁ ho
        exact ⟨made, _, ht⟩
    | _ => exact ⟨[], [], .start (.refl h)⟩
  obtain ⟨made, kinds, ht⟩ := hsteps
  rw [runJson_run]
  rcases ho : outcome s entry h with ⟨halt | ⟨script, styled⟩, h₁⟩
  · rw [ho] at ht
    obtain ⟨r, h', hr, hh, -⟩ := exists_run_of_wp (wp_halted (reportable_of_outcome ho) h₁)
    exact ⟨r, h', made, kinds, hr, ht.behind hh⟩
  · rw [ho] at ht
    exact ⟨_, _, made, kinds, rfl, ht.behind (.log h₁ _)⟩

/-- The name is that of a specifier that begins with a dash, given by a call of the first pass. -/
def FromDashed (made : List Call) (n : String) : Prop :=
  ∃ d ∈ made, d.kind = .pass .discover ∧ ∃ specifiers, Missing.given d = .ok specifiers ∧
    ∃ x ∈ specifiers, Text.Dashed (Text.trim x.toList) ∧ ∃ m, Package.nameOf x = .ok m ∧ Package.nameOf m = .ok n

theorem FromDashed.dashed {made : List Call} {n : String} (h : FromDashed made n) : Text.Dashed n.toList := by
  obtain ⟨d, -, -, specifiers, -, x, -, hdashed, m, hm, hmn⟩ := h
  exact (Package.dashed_iff hm hmn).2 hdashed

theorem fromDashed_of_wants {cache : Cache} {made : List Call} {c : Call} (hc : Wants cache made c) : ∃ npm batch,
    c.argv = npm :: (["install", "--prefix", cache.root.text] ++ Installer.flags ++ batch) ∧
    ∀ n ∈ batch, Text.Dashed n.toList → FromDashed made n := by
  rcases hc with ⟨styles, npm, batch, hargv, hnamed⟩ | ⟨d, hd, hkind, missing, hmissing, npm, batch, hargv, hnamed⟩
  · refine ⟨npm, batch, hargv, fun n hn hdashed => ?_⟩
    obtain ⟨a, ha, m, hm, hmn⟩ := hnamed n hn
    exact absurd ((Package.dashed_iff hm hmn).1 hdashed) (not_dashed_of_base a ha)
  · refine ⟨npm, batch, hargv, fun n hn hdashed => ?_⟩
    obtain ⟨a, ha, m, hm, hmn⟩ := hnamed n hn
    obtain ⟨specifiers, hspecifiers, hgiven⟩ := Missing.exists_of_mem_returned hmissing
    obtain ⟨x, hx, hxa⟩ := hgiven a ha
    -- a name was taken three times, and the third changed nothing
    have hself : Package.nameOf m = .ok m := Package.nameOf_of_nameOf hxa hm
    obtain rfl : m = n := Except.ok.inj (hself.symm.trans hmn)
    exact ⟨d, hd, hkind, specifiers, hspecifiers, x, hx, (Package.dashed_iff hxa hm).1 hdashed, a, hxa, hm⟩

/-- The arguments of the package manager are the directory and the flags and then names. A name is read as an option
exactly if it's the name of a specifier that begins with a dash, given by the first pass. -/
theorem run_arguments (s : Settings) (entry : Json) (h : Host) : ∃ r h' made,
    (runJson s entry).run h = (.ok r, h') ∧ h'.calls = h.calls ++ made ∧
    ∀ c ∈ made, c.kind = .npm → ∃ npm batch,
      c.argv = npm :: (["install", "--prefix", s.cacheDir.text] ++ Installer.flags ++ batch) ∧
      ∀ n ∈ batch, Text.Dashed n.toList ↔ FromDashed made n := by
  obtain ⟨r, h', made, kinds, hrun, ht⟩ := run_trace s entry h
  refine ⟨r, h', made, hrun, ht.adds.calls, fun c hc hkind => ?_⟩
  obtain ⟨npm, batch, hargv, hfrom⟩ := fromDashed_of_wants (ht.wanted c hc hkind)
  exact ⟨npm, batch, hargv, fun n hn => ⟨hfrom n hn, FromDashed.dashed⟩⟩

section Called

/-- A host with what every bundle needs, and a component that imports something that begins with a dash. -/
def importsDashed : Host where
  tree.entries := [(["bin"], .dir (.change 0)), (["bin", "node"], .file "" true (.change 0)),
    (["bin", "npm"], .file "" true (.change 0)), (["a.tsx"], .file "" false (.change 0)),
    (["cache"], .dir (.change 0)), (["cache", "node_modules"], .dir (.change 0)),
    (["cache", "node_modules", "esbuild"], .dir (.change 0)), (["cache", "node_modules", "react"], .dir (.change 0)),
    (["cache", "node_modules", "react-dom"], .dir (.change 0))]
  env := [("PATH", "/bin")]
  outcomes.discover := [.ends 0 (some "\x7b\"ok\": true, \"specifiers\": [\"--global\"]\x7d") "" [] .bySuccess]

/-- What is imported can make the package manager install elsewhere. -/
theorem dashed_import_read_as_option :
    (((runJson { cacheDir := Path.ofString "/cache", styles := false } (.str "a.tsx")).run importsDashed).2.calls.map
      fun c => (c.kind, c.argv)) =
    [(.pass .discover, ["/bin/node", "--input-type=module", "-"]),
      (.npm, ["/bin/npm", "install", "--prefix", "/cache", "--no-audit", "--no-fund", "--loglevel=error", "--global"])] ∧
    Text.Dashed "--global".toList := by
  decide +kernel

end Called

end Run

end Bundler
