import Bundler.Proofs.Lodging

/-!
# Canonical names

A name that is its own, with a base if it has a scope (`Package.Canonical`), is the name of whatever has it at the
front: with a version or a path behind it, whatever stands in these, and with blanks around all (`Package.Form`). The
cut is at the mark behind the name, and the mark is no blank, so that what is trimmed is behind it.

Not every name that is found is canonical. Blanks are taken off before the cut and not after it, so a blank that
stood before the mark is left at the end of the name, and the name of the name is without it. Then it has another
directory, too (`Cache.packageDir_eq_iff`), and a list of names can hold both (`Package.distinctNames_again`).
-/

namespace Bundler

namespace Package

open Text

/-! ### Each name once -/

theorem distinct_concat (ns : List String) (n : String) : distinct (ns ++ [n]) = addName (distinct ns) n :=
  List.foldl_append

/-- What is added is what a list would keep that drops what it had before. -/
theorem distinct_eq_eraseDups (ns : List String) : distinct ns = ns.eraseDups := by
  induction ns using List.reverseRecOn with
  | nil => rfl
  | append_singleton ns n ih =>
    rw [distinct_concat, List.eraseDups_append, ← ih]
    unfold addName
    by_cases hn : n ∈ ns
    · have hin : (distinct ns).contains n = true := by simpa using mem_distinct.2 hn
      rw [if_pos hin]
      simp [List.removeAll, hn]
    · have hin : (distinct ns).contains n ≠ true := by simpa using mt mem_distinct.1 hn
      rw [if_neg hin]
      simp [List.removeAll, hn, List.eraseDups_cons]

theorem distinct_of_nodup {ns : List String} (h : ns.Nodup) : distinct ns = ns := by
  induction ns using List.reverseRecOn with
  | nil => rfl
  | append_singleton ns n ih =>
    obtain ⟨hns, -, hdisjoint⟩ := List.nodup_append.1 h
    have hnew : n ∉ ns := fun hn => hdisjoint n hn n (List.mem_singleton_self n) rfl
    rw [distinct_concat, ih hns]
    exact if_neg (by simpa using hnew)

/-! ### A name that is its own -/

/-- A name that is its own, with a base behind its scope if it has one. -/
structure Canonical (p : String) : Prop where
  self : nameOf p = .ok p
  based : p.toList.head? = some '@' → p.toList.count '/' = 1

namespace Canonical

variable {p : String}

theorem trim_eq (h : Canonical p) : trim p.toList = p.toList := by
  obtain ⟨-, hp⟩ := nameOf_eq_ok_iff.1 h.self
  obtain ⟨rest, hrest, -⟩ := exists_cut (trim p.toList)
  have hname : nameChars (trim p.toList) = p.toList := by
    conv_rhs => rw [hp]
    exact (String.toList_ofList).symm
  rw [hname] at hrest
  have hlength := congrArg List.length hrest
  have hle := (trim_sublist p.toList).length_le
  rw [List.length_append] at hlength
  have hnone : rest = [] := List.eq_nil_of_length_eq_zero (by omega)
  rw [hrest, hnone, List.append_nil]

theorem whole (h : Canonical p) : Whole p.toList := by
  obtain ⟨hne, -⟩ := nameOf_eq_ok_iff.1 h.self
  rw [h.trim_eq] at hne
  exact ⟨narrow_of_nameOf h.self, hne, fun hat => List.count_pos_iff.1 (by rw [h.based hat]; exact Nat.one_pos)⟩

end Canonical

/-- A name with a version behind it, or a path, or both. -/
inductive Decorates (p : String) : String → Prop where
  | plain : Decorates p p
  | path (q : String) : Decorates p (p ++ "/" ++ q)
  | version (v : String) : Decorates p (p ++ "@" ++ v)
  | both (v q : String) : Decorates p (p ++ "@" ++ v ++ "/" ++ q)

/-- A decorated name with blanks around it. -/
def Form (p s : String) : Prop :=
  ∃ before d after, Decorates p d ∧ (∀ c ∈ before.toList, isBlank c = true) ∧ (∀ c ∈ after.toList, isBlank c = true) ∧
    s = before ++ d ++ after

theorem Decorates.cut {p d : String} (h : Decorates p d) : ∃ rest, d.toList = p.toList ++ rest ∧ Cut rest := by
  cases h with
  | plain => exact ⟨[], by simp, .nil⟩
  | path q => exact ⟨'/' :: q.toList, by simp, .cons (.inr rfl) _⟩
  | version v => exact ⟨'@' :: v.toList, by simp, .cons (.inl rfl) _⟩
  | both v q => exact ⟨'@' :: (v.toList ++ '/' :: q.toList), by simp, .cons (.inl rfl) _⟩

/-- Blanks at the end are taken off what is cut off, and not off the name. -/
theorem trim_append_cut {cs rest : List Char} (hcs : trim cs = cs) (hne : cs ≠ []) (hrest : Cut rest) :
    ∃ rest', trim (cs ++ rest) = cs ++ rest' ∧ Cut rest' := by
  cases rest with
  | nil => exact ⟨[], by rw [List.append_nil, hcs], .nil⟩
  | cons mark rest =>
    have hmark : isBlank mark = false := by rcases hrest mark rfl with rfl | rfl <;> decide
    obtain ⟨c, r, rfl⟩ := List.exists_cons_of_ne_nil hne
    have hc : isBlank c = false := not_blank_of_head?_trim (by rw [hcs]; rfl)
    refine ⟨mark :: trimRight rest, ?_, .cons (hrest mark rfl) _⟩
    rw [List.cons_append, trim_cons hc, trimRight_append_cons r rest hmark]
    rfl

theorem Canonical.nameOf_form {p s : String} (hp : Canonical p) (hs : Form p s) : nameOf s = .ok p := by
  obtain ⟨before, d, after, hd, hbefore, hafter, rfl⟩ := hs
  obtain ⟨rest, hrest, hcut⟩ := hd.cut
  have hwhole := hp.whole
  obtain ⟨c, r, hcons⟩ := List.exists_cons_of_ne_nil hwhole.nonempty
  have hc : isBlank c = false := not_blank_of_head?_trim (by rw [hp.trim_eq, hcons]; rfl)
  obtain ⟨rest', hrest', hcut'⟩ := trim_append_cut hp.trim_eq hwhole.nonempty hcut
  have htrim : trim (before ++ d ++ after).toList = p.toList ++ rest' := by
    rw [String.toList_append, String.toList_append, trim_append_blank hbefore hafter, hrest, hrest']
    exact ⟨c, by rw [hrest, hcons]; rfl, hc⟩
  rw [nameOf_eq_ok_iff, htrim, hwhole.nameChars_append hcut', String.ofList_toList]
  exact ⟨List.append_ne_nil_of_left_ne_nil hwhole.nonempty _, rfl⟩

/-! ### A name that is another's -/

theorem isEntry_of_blankAtEnd {s : String} (h : BlankAtEnd s) : Path.IsEntry s := by
  obtain ⟨c, hc, hblank⟩ := h
  constructor <;> rintro rfl
  · cases hc
  all_goals
    obtain rfl : '.' = c := Option.some.inj hc
    exact absurd hblank (by decide)

theorem ne_trimmed_of_blankAtEnd {n : String} (h : BlankAtEnd n) : n ≠ trimmed n := by
  intro heq
  rw [heq] at h
  exact not_blankAtEnd_trim n.toList h

/-- Where a name ends in a blank, one of its levels is none of those of the name without it. -/
theorem exists_level_of_blankAtEnd {n : String} (h : Narrow n.toList) (hblank : BlankAtEnd n) :
    ∃ level ∈ levels n, level ∉ levels (trimmed n) := by
  have hne := ne_trimmed_of_blankAtEnd hblank
  have hlevel : ∀ {s : String}, BlankAtEnd s → s ∈ pieces '/' n → s ∈ levels n := fun hs hmem =>
    List.mem_filter.2 ⟨hmem, (Path.isEntry_iff.1 (isEntry_of_blankAtEnd hs)).1⟩
  have halone : '/' ∉ n.toList → ∃ level ∈ levels n, level ∉ levels (trimmed n) := fun hslash => by
    have htrimmed : '/' ∉ (trimmed n).toList := by
      unfold trimmed
      rw [String.toList_ofList]
      exact fun hmem => hslash ((trim_sublist n.toList).subset hmem)
    refine ⟨n, hlevel hblank (by simp [Path.pieces_of_noSlash hslash]), fun hmem => hne ?_⟩
    have hpiece := List.mem_of_mem_filter hmem
    rwa [Path.pieces_of_noSlash htrimmed, List.mem_singleton] at hpiece
  generalize hcs : n.toList = cs at h
  cases h with
  | plain hat hslash => exact halone (hcs ▸ hslash)
  | alone hat hslash =>
    refine halone ?_
    rw [hcs]
    simpa using hslash
  | @within cs ds hat hslash hat' hslash' =>
    have htrimmed : (trimmed n).toList = '@' :: (cs ++ '/' :: trimRight ds) := by
      unfold trimmed
      rw [String.toList_ofList, hcs, trim_cons (by decide), trimRight_append_cons _ ds (by decide)]
    have hsub : (trimRight ds).Sublist ds := (List.rdropWhile_prefix isBlank _).sublist
    have hbase : BlankAtEnd (String.ofList ds) := by
      obtain ⟨c, hc, hblank⟩ := hblank
      rw [hcs] at hc
      rcases List.eq_nil_or_concat' ds with rfl | ⟨ds, d, rfl⟩
      · obtain rfl : '/' = c := by simpa [List.getLast?_cons] using hc
        exact absurd hblank (by decide)
      · exact ⟨c, by simpa [List.getLast?_cons] using hc, hblank⟩
    refine ⟨String.ofList ds, hlevel hbase (by simp [pieces_of_scope hcs hslash hslash']), fun hmem => ?_⟩
    have hpiece := List.mem_of_mem_filter hmem
    rw [pieces_of_scope htrimmed hslash fun hs => hslash' (hsub.subset hs)] at hpiece
    simp only [List.mem_cons, List.not_mem_nil, or_false, String.ofList_inj] at hpiece
    rcases hpiece with rfl | heq
    · simp at hat'
    · refine hne ?_
      rw [← String.toList_inj, hcs, htrimmed, ← heq]

end Package

namespace Cache

variable {c : Cache}

/-- The name of a specifier leads where the specifier does, unless it ends in a blank. -/
theorem packageDir_eq_iff {s n : String} (hs : Package.Nameable s) (hn : Package.nameOf s = .ok n) :
    c.packageDir n = c.packageDir s ↔ ¬Text.BlankAtEnd n := by
  obtain ⟨m, hm, -, hself, hiff⟩ := hs.exists_nameOf
  obtain rfl := Except.ok.inj (hn.symm.trans hm)
  constructor
  · intro heq hblank
    rw [packageDir_eq hself, packageDir_eq hn] at heq
    have hparts : c.packages.parts ++ Package.levels (Text.trimmed n) = c.packages.parts ++ Package.levels n :=
      congrArg Path.parts (Except.ok.inj heq)
    obtain ⟨level, hlevel, hnot⟩ := Package.exists_level_of_blankAtEnd (Package.narrow_of_nameOf hn) hblank
    rw [List.append_cancel_left hparts] at hnot
    exact hnot hlevel
  · intro hblank
    rw [packageDir_eq (hiff.2 hblank), packageDir_eq hn]

end Cache

namespace Package

open Text

/-- The names of names are those without the blanks at their ends. -/
theorem distinctNames_again {xs : List String} (hxs : ∀ x ∈ xs, Nameable x) : ∃ ns, distinctNames xs = .ok ns ∧
    distinctNames ns = .ok (distinct (ns.map trimmed)) ∧ (distinctNames ns = .ok ns ↔ ∀ n ∈ ns, ¬BlankAtEnd n) := by
  obtain ⟨all, hall⟩ : ∃ all, xs.mapM nameOf = .ok all := Except.mapM_of_exists fun x hx => by
    obtain ⟨n, hn, -⟩ := (hxs x hx).exists_nameOf
    exact ⟨n, hn⟩
  have hnames := distinctNames_of_mapM hall
  obtain ⟨hnodup, hmem⟩ := distinctNames_spec hnames
  have hself : ∀ n ∈ distinct all, nameOf n = .ok (trimmed n) ∧ (nameOf n = .ok n ↔ ¬BlankAtEnd n) := fun n hn => by
    obtain ⟨x, hx, hxn⟩ := (hmem n).1 hn
    obtain ⟨m, hm, -, hself, hiff⟩ := (hxs x hx).exists_nameOf
    obtain rfl := Except.ok.inj (hxn.symm.trans hm)
    exact ⟨hself, hiff⟩
  have hagain := distinctNames_of_mapM (Except.mapM_of_ok fun n hn => (hself n hn).1)
  refine ⟨_, hnames, hagain, ?_, ?_⟩
  · intro heq n hn
    rw [← Except.ok.inj (hagain.symm.trans heq), mem_distinct] at hn
    obtain ⟨m, -, rfl⟩ := List.mem_map.1 hn
    exact not_blankAtEnd_trim m.toList
  · intro hplain
    have hsame : (distinct all).mapM nameOf = .ok ((distinct all).map id) :=
      Except.mapM_of_ok fun n hn => (hself n hn).2.2 (hplain n hn)
    rw [distinctNames_of_mapM hsame, List.map_id, distinct_of_nodup hnodup]

theorem distinctNames_forms {pairs : List (String × String)} (h : ∀ x ∈ pairs, Canonical x.1 ∧ Form x.1 x.2) :
    distinctNames (pairs.map Prod.snd) = .ok (pairs.map Prod.fst).eraseDups := by
  rw [← distinct_eq_eraseDups]
  refine distinctNames_of_mapM ?_
  rw [List.mapM_map]
  exact Except.mapM_of_ok fun x hx => (h x hx).1.nameOf_form (h x hx).2

/-- The name of a name is that name without the blanks at its end. There are some only where a blank stood before
the version or the path that was cut off; nowhere else does a name lead elsewhere than its specifier. -/
theorem rename_exact {s : String} (hs : Nameable s) {xs : List String} (hxs : ∀ x ∈ xs, Nameable x) :
    (∃ n, nameOf s = .ok n ∧ n ≠ "" ∧ nameOf n = .ok (trimmed n) ∧ (nameOf n = .ok n ↔ ¬BlankAtEnd n) ∧
      (BlankAtEnd n → ∃ mark rest, (mark = '@' ∨ mark = '/') ∧ trim s.toList = n.toList ++ mark :: rest) ∧
      ∀ c : Cache, (c.packageDir n = c.packageDir s ↔ ¬BlankAtEnd n) ∧
        (¬BlankAtEnd n → c.isInstalled n = c.isInstalled s)) ∧
    ∃ ns, distinctNames xs = .ok ns ∧ distinctNames ns = .ok (distinct (ns.map trimmed)) ∧
      (distinctNames ns = .ok ns ↔ ∀ n ∈ ns, ¬BlankAtEnd n) := by
  obtain ⟨n, hn, ⟨c, hc, -⟩, hself, hiff⟩ := hs.exists_nameOf
  have hne : n ≠ "" := by
    rintro rfl
    cases hc
  refine ⟨⟨n, hn, hne, hself, hiff, exists_cut_of_blankAtEnd hn, fun c => ⟨c.packageDir_eq_iff hs hn, fun h => ?_⟩⟩,
    distinctNames_again hxs⟩
  exact c.isInstalled_congr ((hiff.2 h).trans hn.symm)

/-- A scoped name is its own, also where another name isn't. -/
theorem rename_exact_scoped : Nameable "@scope/pkg@1.2.0/sub" ∧
    (∃ n, nameOf "@scope/pkg@1.2.0/sub" = .ok n ∧ nameOf n = .ok n ∧
      ∀ c : Cache, c.isInstalled n = c.isInstalled "@scope/pkg@1.2.0/sub") ∧
    ∃ ns, distinctNames ["@scope/pkg@1.2.0/sub", "a @1"] = .ok ns ∧
      distinctNames ns = .ok (distinct (ns.map trimmed)) := by
  have hs : Nameable "@scope/pkg@1.2.0/sub" := ⟨'@', by rfl, by decide⟩
  have ha : Nameable "a @1" := ⟨'a', by rfl, by decide⟩
  have hname : nameOf "@scope/pkg@1.2.0/sub" = .ok "@scope/pkg" := by rfl
  have hboth : ∀ x ∈ ["@scope/pkg@1.2.0/sub", "a @1"], Nameable x := by simpa using ⟨hs, ha⟩
  obtain ⟨⟨n, hn, -, -, hiff, -, hdirs⟩, ns, hns, hagain, -⟩ := rename_exact hs hboth
  obtain rfl := Except.ok.inj (hname.symm.trans hn)
  have hblank : ¬BlankAtEnd "@scope/pkg" := by
    rw [not_blankAtEnd_iff]
    intro c hc
    obtain rfl : 'g' = c := Option.some.inj hc
    rfl
  exact ⟨hs, ⟨_, hname, hiff.2 hblank, fun c => (hdirs c).2 hblank⟩, ns, hns, hagain⟩

/-- A tree in which one package is installed. -/
def oneAlone : Tree where
  entries := [(["cache"], .dir (.change 0)), (["cache", "node_modules"], .dir (.change 0)),
    (["cache", "node_modules", "a"], .dir (.change 0))]

/-- The blank before a version is part of the name, but not of its name: the two are installed apart. -/
theorem blank_before_version : Nameable "a @1" ∧ nameOf "a @1" = .ok "a " ∧ nameOf "a " = .ok "a" ∧
    distinctNames ["a @1", "a"] = .ok ["a ", "a"] ∧ distinctNames ["a ", "a"] = .ok ["a"] ∧
    (Cache.theCache.isInstalled "a @1").seenAt oneAlone [] = .ok false ∧ Cache.theCache.Has oneAlone [] "a " :=
  ⟨⟨'a', by rfl, by decide⟩, by rfl, by rfl, by rfl, by rfl, by rfl, by rfl⟩

/-- A name with whatever behind it that is a version or a path, and blanks around that, is found by that name. -/
theorem forms_resolve {p s : String} (hp : Canonical p) (hs : Form p s) {pairs : List (String × String)}
    (hpairs : ∀ x ∈ pairs, Canonical x.1 ∧ Form x.1 x.2) :
    nameOf s = .ok p ∧ (∀ c : Cache, c.isInstalled s = c.isInstalled p) ∧
      distinctNames (pairs.map Prod.snd) = .ok (pairs.map Prod.fst).eraseDups := by
  have hname := hp.nameOf_form hs
  exact ⟨hname, fun c => c.isInstalled_congr (hname.trans hp.self.symm), distinctNames_forms hpairs⟩

/-- A scoped name with all of it, among others. -/
theorem forms_resolve_scoped : Canonical "@scope/pkg" ∧ Form "@scope/pkg" "  @scope/pkg@1 2/sub @x/ " ∧
    nameOf "  @scope/pkg@1 2/sub @x/ " = .ok "@scope/pkg" ∧
    distinctNames ["a/b", "  @scope/pkg@1 2/sub @x/ ", "a"] = .ok ["a", "@scope/pkg"] := by
  have hscoped : Canonical "@scope/pkg" := ⟨by rfl, fun _ => by decide⟩
  have ha : Canonical "a" := ⟨by rfl, nofun⟩
  have hform : Form "@scope/pkg" "  @scope/pkg@1 2/sub @x/ " :=
    ⟨"  ", _, " ", .both "1 2" "sub @x/", List.all_eq_true.1 (by decide), List.all_eq_true.1 (by decide), by decide⟩
  have hpath : Form "a" "a/b" := ⟨"", _, "", .path "b", nofun, nofun, by decide⟩
  have hplain : Form "a" "a" := ⟨"", _, "", .plain, nofun, nofun, by decide⟩
  have hall : ∀ x ∈ [("a", "a/b"), ("@scope/pkg", "  @scope/pkg@1 2/sub @x/ "), ("a", "a")],
      Canonical x.1 ∧ Form x.1 x.2 := by
    simpa using ⟨⟨ha, hpath⟩, ⟨hscoped, hform⟩, ha, hplain⟩
  obtain ⟨hname, -, hnames⟩ := forms_resolve hscoped hform hall
  exact ⟨hscoped, hform, hname, hnames⟩

end Package

end Bundler
