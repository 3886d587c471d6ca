import Bundler.Proofs.Picking
import Bundler.Proofs.Parsing

/-!
# Manifests that are read again

A manifest is written with one item a line. Wherever the lines begin, what stands between the parts of the text is
blank, so that the value is read again from it (`Json.Reader.reads_indented`). A file holds the text as it was written,
and no line end of it is taken for another one (`Manifest.read_of_write`). The bounds of where it's written and of where
it's read decide the rest: what doesn't fit into the former isn't written (`Manifest.write_of_not_fits`), and what
doesn't fit into the latter isn't read again (`Manifest.exists_ofText_eq_error`). Where a cache has a manifest, to make
the cache ready changes nothing (`Cache.ready_of_manifest`).
-/

namespace Bundler

/-! ### Indented texts -/

/-- A text without CR has the line ends with which it is read. -/
theorem Text.unixLines_of_notMem : ∀ {cs : List Char}, '\r' ∉ cs → unixLines cs = cs
  | [], _ => rfl
  | c :: cs, h => by
    obtain ⟨hc, hcs⟩ := not_or.1 (mt List.mem_cons.2 h)
    rw [unixLines, unixLines_of_notMem hcs, if_neg (Ne.symm hc)]
    rintro _ rfl
    exact absurd rfl hc

namespace Json

namespace Writer

theorem mem_newLine {d : Nat} {c : Char} (h : c ∈ newLine d) : c = '\n' ∨ c = ' ' :=
  (List.mem_cons.1 h).imp_right List.eq_of_mem_replicate

theorem cr_notMem_newLine (d : Nat) : '\r' ∉ newLine d := fun h => by
  rcases mem_newLine h with h | h <;> cases h

theorem cr_notMem_of_isPlain {cs : List Char} (h : ∀ c ∈ cs, Text.isPlain c = true) : '\r' ∉ cs := fun hmem =>
  absurd (h _ hmem) (by decide)

mutual

theorem cr_notMem_indented (d : Nat) : ∀ v : Json, '\r' ∉ indented d v
  | .null => cr_notMem_of_isPlain (isPlain_of_mem_value .null)
  | .bool b => cr_notMem_of_isPlain (isPlain_of_mem_value (.bool b))
  | .num n => cr_notMem_of_isPlain (isPlain_of_mem_value (.num n))
  | .str s => cr_notMem_of_isPlain (isPlain_of_mem_value (.str s))
  | .arr [] => cr_notMem_of_isPlain (isPlain_of_mem_value (.arr []))
  | .obj [] => cr_notMem_of_isPlain (isPlain_of_mem_value (.obj []))
  | .arr (v :: vs) => by
    simp [indented, cr_notMem_newLine d, cr_notMem_indentedItems (d + 1) (v :: vs)]
  | .obj (f :: fs) => by
    simp [indented, cr_notMem_newLine d, cr_notMem_indentedFields (d + 1) (f :: fs)]

theorem cr_notMem_indentedItems (d : Nat) : ∀ vs : List Json, '\r' ∉ indentedItems d vs
  | [] => by simp [indentedItems]
  | [v] => by simp [indentedItems, cr_notMem_newLine d, cr_notMem_indented d v]
  | v :: w :: vs => by
    simp [indentedItems, cr_notMem_newLine d, cr_notMem_indented d v, cr_notMem_indentedItems d (w :: vs)]

theorem cr_notMem_indentedFields (d : Nat) : ∀ fs : List (String × Json), '\r' ∉ indentedFields d fs
  | [] => by simp [indentedFields]
  | [(k, v)] => by
    simp [indentedFields, cr_notMem_newLine d, cr_notMem_indented d v, cr_notMem_of_isPlain (isPlain_of_mem_string k)]
  | (k, v) :: f :: fs => by
    simp [indentedFields, cr_notMem_newLine d, cr_notMem_indented d v, cr_notMem_of_isPlain (isPlain_of_mem_string k),
      cr_notMem_indentedFields d (f :: fs)]

end

end Writer

namespace Reader

open Writer (newLine indented indentedItems indentedFields)

variable {digits : Option Nat}

theorem blank_newLine (d : Nat) : Blank (newLine d) := fun c hc => by
  rcases Writer.mem_newLine hc with rfl | rfl <;> rfl

/-- Behind the line end of the first item, the items are read up to what ends the array. -/
theorem reads_indentedItems {d inner : Nat} {xs : List Json} (hne : xs ≠ [])
    (hxs : ∀ x ∈ xs, Reads digits x (indented inner x)) :
    ∃ cs, indentedItems inner xs ++ (newLine d ++ [']']) = newLine inner ++ cs ∧ ReadsItems digits xs cs := by
  induction xs with
  | nil => exact absurd rfl hne
  | cons x xs ih =>
    obtain ⟨hx, hxs⟩ := List.forall_mem_cons.1 hxs
    cases xs with
    | nil => exact ⟨_, by rw [indentedItems, List.append_assoc], .last hx (blank_newLine d)⟩
    | cons y ys =>
      obtain ⟨cs, hcs, hreads⟩ := ih (by simp) hxs
      refine ⟨_, ?_, .more hx .nil (blank_newLine inner) hreads⟩
      rw [indentedItems, List.append_assoc, List.append_assoc, List.cons_append, hcs]
      rfl

theorem reads_indentedFields {d inner : Nat} {fs : List (String × Json)} (hne : fs ≠ [])
    (hfs : ∀ f ∈ fs, Reads digits f.2 (indented inner f.2)) :
    ∃ cs, indentedFields inner fs ++ (newLine d ++ ['\x7d']) = newLine inner ++ cs ∧ ReadsFields digits fs cs := by
  induction fs with
  | nil => exact absurd rfl hne
  | cons f fs ih =>
    obtain ⟨k, v⟩ := f
    obtain ⟨hv, hfs⟩ := List.forall_mem_cons.1 hfs
    cases fs with
    | nil =>
      refine ⟨_, ?_, .last hv .space (blank_newLine d) k⟩
      rw [indentedFields, List.append_assoc, List.append_assoc]
      rfl
    | cons g gs =>
      obtain ⟨cs, hcs, hreads⟩ := ih (by simp) hfs
      refine ⟨_, ?_, .more hv .space .nil (blank_newLine inner) hreads k⟩
      rw [indentedFields]
      simp only [List.append_assoc, List.cons_append, hcs]
      rfl

/-- What is written with one item a line is read again. -/
theorem reads_indented {v : Json} (hv : v.Exact) (hshort : v.Short digits) : ∀ d, Reads digits v (indented d v) := by
  induction hv with
  | null => exact fun _ => reads_null
  | bool b => exact fun _ => reads_bool b
  | num h =>
    cases hshort with
    | num hn => exact fun _ => reads_number h hn
  | str s => exact fun _ => reads_string s
  | @arr xs _ ih =>
    intro d
    cases hshort with
    | arr hshort =>
      cases xs with
      | nil => exact reads_nil .nil
      | cons x xs =>
        obtain ⟨cs, hcs, hreads⟩ := reads_indentedItems (d := d) (by simp) fun y hy => ih y hy (hshort y hy) (d + 1)
        rw [indented, List.append_assoc, List.cons_append, hcs]
        exact hreads.array (blank_newLine _)
  | @obj fs hkeys _ ih =>
    intro d
    cases hshort with
    | obj _ hshort =>
      cases fs with
      | nil => exact reads_empty .nil
      | cons f fs =>
        obtain ⟨cs, hcs, hreads⟩ := reads_indentedFields (d := d) (by simp) fun g hg => ih g hg (hshort g hg) (d + 1)
        rw [indented, List.append_assoc, List.cons_append, hcs]
        exact hreads.object (blank_newLine _) hkeys

end Reader

end Json

namespace Manifest

open Json (Exact)

theorem cr_notMem_text (m : Json) : '\r' ∉ (text m).toList := by
  unfold text Json.writeIndented
  rw [String.toList_append, String.toList_ofList, List.mem_append, not_or]
  exact ⟨Json.Writer.cr_notMem_indented 0 m, by decide⟩

variable {b b' : Json.Bounds} {p : Path} {h h' : Host} {m : Json}

/-- The text of a manifest stands for it wherever it fits. -/
theorem parse_text (hm : m.Exact) (hfits : m.Fits b) : Json.parse b (text m) = .ok m := by
  have hblank : Json.Reader.Blank ['\n'] := List.forall_mem_singleton.2 rfl
  have hlines := Json.parse_of_reads (Json.Reader.reads_indented hm hfits.short 0) hblank hfits.depth_le
  rwa [String.ofList_append] at hlines

theorem ofText_of_fits {fs : List (String × Json)} (hm : (Json.obj fs).Exact) (hfits : (Json.obj fs).Fits b) :
    ofText b (text (.obj fs)) = .ok (.obj fs) := by
  unfold ofText
  rw [parse_text hm hfits]

/-- Where it doesn't fit, that's what reading ends with. -/
theorem exists_ofText_eq_error (hm : m.Exact) (hfits : ¬ m.Fits b) : ∃ e, ofText b (text m) = .error (.excess e) := by
  have hwide : Json.parse? (text m) = some m := Json.parse?_of_parse (parse_text hm m.fits_depth)
  obtain ⟨e, he⟩ := Json.exists_excess_of_not_fits hwide hfits
  refine ⟨e, ?_⟩
  unfold ofText
  rw [he]

/-- A manifest that fits is written like any text. -/
theorem write_of_fits (hfits : m.Fits b) (p : Path) : write b p m = put p m := by
  unfold write
  rw [Json.encodeIndented_of_fits hfits]
  rfl

/-- Of a manifest that doesn't fit only the directory is made. -/
theorem write_of_not_fits (hfits : ¬ m.Fits b) (p : Path) :
    ∃ e, write b p m = (do Action.makeDirs p.parent; throw (.excess e)) := by
  obtain ⟨e, -, he⟩ := Json.exists_encodeIndented_eq_error hfits
  refine ⟨e, ?_⟩
  unfold write
  rw [he]
  rfl

/-- What was written had room where it was done. -/
theorem put_of_write (hr : (write b p m).run h = (.ok (), h')) : (put p m).run h = (.ok (), h') := by
  by_cases hfits : m.Fits b
  · rwa [write_of_fits hfits] at hr
  · obtain ⟨e, he⟩ := write_of_not_fits hfits p
    rw [he, run_bind] at hr
    rcases hdirs : (Action.makeDirs p.parent).run h with ⟨_ | _, _⟩ <;> rw [hdirs] at hr <;> cases hr

/-- A manifest that was written is what is found in its file. -/
theorem stat_of_write (hr : (write b p m).run h = (.ok (), h')) :
    '\x00' ∉ p.text.toList ∧ ∃ x s, h'.tree.stat h'.cwd p = .ok (.file (text m) x s) := by
  have hwp : wp (put p m)
      (fun _ h' => '\x00' ∉ p.text.toList ∧ ∃ x s, h'.tree.stat h'.cwd p = .ok (.file (text m) x s))
      (fun _ _ => True) h := by
    unfold put
    rw [wp_bind]
    refine wp_of_forall _ (fun _ h₁ => ?_) fun _ _ => trivial
    refine wp_mono _ (Action.wp_writeText p (text m) h₁) ?_ fun _ _ _ => trivial
    rintro _ h₂ ⟨hnul, t, ht, rfl⟩
    exact ⟨hnul, Tree.stat_of_write ht⟩
  rwa [wp_of_run (put_of_write hr)] at hwp

theorem read_of_stat {s : String} {x : Bool} {stamp : Stamp} (hnul : '\x00' ∉ p.text.toList)
    (hstat : h.tree.stat h.cwd p = .ok (.file s x stamp)) (hcr : '\r' ∉ s.toList) :
    (read b p).run h = (ofText b s, h) := by
  have hread : h.tree.read h.cwd p = .ok s := by
    unfold Tree.read
    rw [hstat]
    rfl
  have htext : (Action.readText p).run h = (.ok s, h) := by
    unfold Action.readText
    rw [run_bind_of_ok (Action.observe_run hnul hread), Text.unixLines_of_notMem hcr, String.ofList_toList]
    rfl
  unfold read
  rw [run_bind_of_ok htext]
  cases ofText b s <;> rfl

/-- What was written is what the reader makes of its text, wherever it's read. -/
theorem read_of_write (hr : (write b p m).run h = (.ok (), h')) :
    (read b' p).run h' = (ofText b' (text m), h') := by
  obtain ⟨hnul, x, stamp, hstat⟩ := stat_of_write hr
  exact read_of_stat hnul hstat (cr_notMem_text m)

theorem eq_of_build {name : Json} (h : build name = .ok m) :
    ∃ s, name = .str s ∧ m = .obj [("name", .str (Text.trimmed s)), ("private", .bool true)] := by
  unfold build at h
  split at h
  · next s =>
    split at h
    · cases h
    · exact ⟨s, rfl, (Except.ok.inj h).symm⟩
  · cases h

/-- The manifest of any name is a flat object, which fits wherever there's room for one. -/
theorem fits_of_build {name : Json} (hm : build name = .ok m) (hlevels : 0 < b.levels) : m.Fits b := by
  obtain ⟨s, -, rfl⟩ := eq_of_build hm
  have hflat : (Json.obj [("name", .str (Text.trimmed s)), ("private", .bool true)]).Fits ⟨b.digits, 1⟩ := by
    refine .obj ?_
    simp only [List.forall_mem_cons]
    exact ⟨Json.fits_str _ _, Json.fits_bool _ _, List.forall_mem_nil _⟩
  exact hflat.mono rfl hlevels

theorem ofText_of_build {name : Json} (hm : build name = .ok m) (hlevels : 0 < b.levels) :
    ofText b (text m) = .ok m := by
  have hfits := fits_of_build hm hlevels
  obtain ⟨s, -, rfl⟩ := eq_of_build hm
  refine ofText_of_fits (.obj (by simp) ?_) hfits
  simp only [List.forall_mem_cons]
  exact ⟨.str _, .bool _, List.forall_mem_nil _⟩

end Manifest

/-! ### A cache with a manifest -/

namespace Path

theorem nul_notMem_of_below {p : Path} {name : String} (h : '\x00' ∉ (p.below [name]).text.toList) :
    '\x00' ∉ p.text.toList := by
  by_cases hp : p.parts = []
  · obtain ⟨root, parts⟩ := p
    obtain rfl : parts = [] := hp
    cases root <;> decide
  · rw [text_below hp (by simp)] at h
    simp only [String.toList_append, List.mem_append, not_or] at h
    exact h.1.1

end Path

namespace Tree

variable {t : Tree} {cwd l : Location}

theorem isDirAt_of_walk_singleton {n : Nat} {dir : Location} {c : String} (h : t.walk .followed n dir [c] = .ok l) :
    t.isDirAt dir = true := by
  obtain ⟨enter, hwalk, -⟩ := exists_walkFrom t n
  rw [hwalk] at h
  exact (walkFrom_cons_iff.1 h).1

/-- What stands directly below a path stands in a directory. -/
theorem stat_of_below {p : Path} {name : String} {e : Entry} (h : t.stat cwd (p.below [name]) = .ok e) :
    ∃ s, t.stat cwd p = .ok (.dir s) := by
  obtain ⟨l, hl, -⟩ := stat_eq_ok_iff.1 h
  have hdir : ∃ m, t.locate cwd p = .ok m ∧ t.isDirAt m = true := by
    by_cases hp : p.parts = []
    · refine ⟨startOf cwd p, ?_, ?_⟩
      · obtain ⟨root, parts⟩ := p
        obtain rfl : parts = [] := hp
        unfold locate
        rw [if_neg (by cases root <;> decide)]
        rfl
      · unfold locate at hl
        split at hl
        · cases hl
        · have hparts : (p.below [name]).parts = [name] := by simp [Path.below, hp]
          rw [hparts] at hl
          exact isDirAt_of_walk_singleton hl
    · obtain ⟨m, k, hm, hwalk⟩ := locate_below hp hl
      exact ⟨m, hm, isDirAt_of_walk_singleton hwalk⟩
  obtain ⟨m, hm, hdir⟩ := hdir
  obtain ⟨s, hs⟩ := isDirAt_iff.1 hdir
  exact ⟨s, stat_eq_ok_iff.2 ⟨m, hm, hs⟩⟩

end Tree

/-- A cache that has a manifest is ready. -/
theorem Cache.ready_of_manifest {c : Cache} {h : Host} (hthere : ((Action.exists? c.manifest).run h).1 = .ok true) :
    c.Ready h.tree h.cwd := by
  have hholds : h.Holds c.manifest := by
    by_cases hknown : ∀ e, ¬h.Withholds c.manifest e
    · obtain ⟨b, hr, hb⟩ := Action.exists?_run hknown
      rw [hr] at hthere
      exact hb.1 (Except.ok.inj hthere)
    · push Not at hknown
      obtain ⟨e, he⟩ := hknown
      rw [Action.exists?_run_of_withholds he] at hthere
      cases hthere
  obtain ⟨hnul, e, he⟩ := hholds
  have hbelow : c.manifest = c.root.below ["package.json"] := Path.child_of_noSlash _ (by decide)
  refine ⟨?_, hnul, e, he⟩
  rw [hbelow] at hnul he
  exact ⟨Path.nul_notMem_of_below hnul, Tree.stat_of_below he⟩

namespace Manifest

/-- A manifest of whole numbers and of objects without a key that stands twice is read again as it was written, wherever
it fits, and where it doesn't, that's what reading ends with. In the same way it's written where it fits, and the system
has the last word. The manifest of a name fits wherever there's room for an object. Where a cache has a manifest, to make
the cache ready changes nothing, so that what is read, or what reading fails by, stays the same. -/
theorem read_written :
    (∀ b b' p fs h h', (Json.obj fs).Exact → (write b p (.obj fs)).run h = (.ok (), h') →
      ((Json.obj fs).Fits b' → (read b' p).run h' = (.ok (.obj fs), h')) ∧
      (¬ (Json.obj fs).Fits b' → ∃ e, (read b' p).run h' = (.error (.excess e), h'))) ∧
    (∀ b p m, (m.Fits b → write b p m = put p m) ∧
      (¬ m.Fits b → ∃ e, write b p m = (do Action.makeDirs p.parent; throw (.excess e)))) ∧
    (∀ name m, build name = .ok m → ∃ s, name = .str s ∧ (∀ b : Json.Bounds, 0 < b.levels → m.Fits b) ∧
      ∀ b b' p h h', (write b p m).run h = (.ok (), h') → 0 < b'.levels →
        (read b' p).run h' = (.ok (.obj [("name", .str (Text.trimmed s)), ("private", .bool true)]), h')) ∧
    ∀ (c : Cache) h, ((Action.exists? c.manifest).run h).1 = .ok true → c.ensure.run h = (.ok (), h) ∧
      ∀ b, (read b c.manifest).run (c.ensure.run h).2 = (read b c.manifest).run h := by
  refine ⟨fun b b' p fs h h' hexact hr => ⟨fun hfits => ?_, fun hfits => ?_⟩,
    fun b p m => ⟨fun hfits => write_of_fits hfits p, fun hfits => write_of_not_fits hfits p⟩,
    fun name m hbuild => ?_, fun c h hthere => ?_⟩
  · rw [read_of_write hr, ofText_of_fits hexact hfits]
  · obtain ⟨e, he⟩ := exists_ofText_eq_error hexact hfits
    exact ⟨e, by rw [read_of_write hr, he]⟩
  · obtain ⟨s, hname, hm⟩ := eq_of_build hbuild
    refine ⟨s, hname, fun b => fits_of_build hbuild, fun b b' p h h' hr hlevels => ?_⟩
    rw [read_of_write hr, ofText_of_build hbuild hlevels, hm]
  · have hensure := c.ensure_of_ready (Cache.ready_of_manifest hthere)
    exact ⟨hensure, fun b => by rw [hensure]⟩

section Written

/-- The place of a manifest in the root directory of a host without anything. -/
def place : Path := ⟨.one, ["package.json"]⟩

/-- Bounds with as many levels as are asked for. -/
def upTo (levels : Nat) : Json.Bounds := ⟨some 4300, levels⟩

theorem write_place (hfits : m.Fits b) : ∃ h', (write b place m).run {} = (.ok (), h') := by
  rw [write_of_fits hfits]
  exact ⟨_, rfl⟩

/-- A manifest with what an indented text has to keep apart. -/
def various : List (String × Json) :=
  [("a", .arr [.null, .arr [], .obj []]), ("é\n", .obj [("", .int (-12)), ("a", .str "\uD7FF😀\t\"")]),
    ("b", .bool false)]

theorem exact_various : (Json.obj various).Exact := by
  refine .obj (by decide) ?_
  simp only [various, List.forall_mem_cons]
  refine ⟨.arr ?_, .obj (by decide) ?_, .bool _, List.forall_mem_nil _⟩
  · simp only [List.forall_mem_cons]
    exact ⟨.null, .arr (List.forall_mem_nil _), .obj (by decide) (List.forall_mem_nil _), List.forall_mem_nil _⟩
  · simp only [List.forall_mem_cons]
    exact ⟨.num trivial, .str _, List.forall_mem_nil _⟩

theorem fits_various : (Json.obj various).Fits (upTo 3) := by
  have hnone : Json.excess? .indented (some 4300) 3 (.obj various) = none := by decide
  exact Json.fits_of_excess? hnone

/-- A host with a cache whose manifest isn't one. -/
def mistaken : Host where
  tree.entries := [(["cache"], .dir (.change 0)), (["cache", "package.json"], .file "[]" false (.change 0))]

/-- Both manifests are read again, the first not where there are too few levels, and what reading fails by stays the
same. -/
theorem read_written_various :
    (∃ h', (write (upTo 3) place (.obj various)).run {} = (.ok (), h') ∧
      (read (upTo 4) place).run h' = (.ok (.obj various), h') ∧
      ∃ e, (read (upTo 2) place).run h' = (.error (.excess e), h')) ∧
    (∃ m h', build (.str " x\n") = .ok m ∧ (write (upTo 1) place m).run {} = (.ok (), h') ∧
      (read (upTo 1) place).run h' = (.ok (.obj [("name", .str "x"), ("private", .bool true)]), h')) ∧
    (read (upTo 1) ⟨.one, ["cache", "package.json"]⟩).run ((Cache.mk ⟨.one, ["cache"]⟩).ensure.run mistaken).2 =
      (.error .manifestNotObject, mistaken) := by
  obtain ⟨hread, -, hbuilt, hkept⟩ := read_written
  refine ⟨?_, ?_, ?_⟩
  · obtain ⟨h', hr⟩ := write_place fits_various
    have hagain := hread _ (upTo 4) _ _ _ _ exact_various hr
    have hnarrow := hread _ (upTo 2) _ _ _ _ exact_various hr
    exact ⟨h', hr, hagain.1 (fits_various.mono rfl (by decide)), hnarrow.2 fun h => absurd h.depth_le (by decide)⟩
  · have hbuild : build (.str " x\n") = .ok (.obj [("name", .str "x"), ("private", .bool true)]) := by rfl
    obtain ⟨s, hs, hfits, hname⟩ := hbuilt _ _ hbuild
    obtain ⟨h', hr⟩ := write_place (hfits (upTo 1) (by decide))
    cases hs
    exact ⟨_, h', hbuild, hr, hname _ (upTo 1) _ _ _ hr (by decide)⟩
  · have hmanifest : (Cache.mk ⟨.one, ["cache"]⟩).manifest = ⟨.one, ["cache", "package.json"]⟩ :=
      Path.child_of_noSlash _ (by decide)
    obtain ⟨-, hsame⟩ := hkept (Cache.mk ⟨.one, ["cache"]⟩) mistaken (by rw [hmanifest]; rfl)
    rw [hmanifest] at hsame
    rw [hsame]
    rfl

/-- An object that holds objects, one within the other. -/
def nested : Nat → Json
  | 0 => .obj []
  | n + 1 => .obj [("a", nested n)]

theorem depth_nested : ∀ n, (nested n).depth = n + 1
  | 0 => rfl
  | n + 1 => by
    rw [nested, Json.depth, Json.depthFields, Json.depthFields, depth_nested n]
    simp

theorem exact_nested : ∀ n, (nested n).Exact
  | 0 => .obj List.nodup_nil (List.forall_mem_nil _)
  | n + 1 => .obj (by simp) (List.forall_mem_singleton.2 (exact_nested n))

theorem fits_nested : ∀ n, (nested n).Fits (upTo (n + 1))
  | 0 => .obj (List.forall_mem_nil _)
  | n + 1 => .obj (List.forall_mem_singleton.2 (fits_nested n))

/-- A manifest with a number that has one digit too many. -/
def endless (digits : Nat) : Json :=
  .obj [("n", .num (.int (Nat.pow 10 digits)))]

theorem exact_endless (digits : Nat) : (endless digits).Exact :=
  .obj (by simp) (List.forall_mem_singleton.2 (.num trivial))

theorem not_fits_endless {digits levels : Nat} (hdigits : 0 < digits) :
    ¬ (endless digits).Fits ⟨some digits, levels⟩ := by
  rintro ⟨hshort, -⟩
  cases hshort with
  | obj _ hfs =>
    cases List.forall_mem_singleton.1 hfs with
    | num hn => exact absurd (Number.lt_digits_pow hdigits) (Nat.not_lt.2 (hn digits rfl))

/-- What nests deeper than the reader goes is written where there's more room, but it isn't read again. A number with
too many digits isn't even written. -/
theorem nested_unread :
    ((nested 960).Exact ∧ ∃ h' e, (write (upTo 961) place (nested 960)).run {} = (.ok (), h') ∧
      (read (upTo 960) place).run h' = (.error (.excess e), h')) ∧
    ((endless 4300).Exact ∧ ∃ h' e, (write (upTo 960) place (endless 4300)).run {} = (.error (.excess e), h')) := by
  refine ⟨⟨exact_nested 960, ?_⟩, exact_endless 4300, ?_⟩
  · obtain ⟨h', hr⟩ := write_place (fits_nested 960)
    have hdeep : ¬ (nested 960).Fits (upTo 960) := fun h =>
      absurd h.depth_le (by rw [depth_nested]; exact Nat.not_succ_le_self 960)
    obtain ⟨e, he⟩ := exists_ofText_eq_error (exact_nested 960) hdeep
    exact ⟨h', e, hr, by rw [read_of_write hr, he]⟩
  · have hlong : ¬ (endless 4300).Fits (upTo 960) := not_fits_endless (by decide)
    obtain ⟨e, he⟩ := write_of_not_fits hlong place
    rw [he]
    exact ⟨_, e, rfl⟩

end Written

end Manifest

end Bundler
