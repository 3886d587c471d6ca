import Bundler.Proofs.Discovering
import Bundler.Proofs.Keeping

/-!
# Where packages lie

The way to the directory of a package goes on from that of all packages, by the levels of the package's name
(`Cache.packageDir_eq`). A walk along entries takes one at a time (`Tree.Descends`): each is a directory, or a link
that leads to one. So a name that is told by its levels (`Package.Lodges`) counts as installed only for what lies
below all packages in its own place. A specifier can also name a scope alone, as `@a` does, or one with no entry
behind it, as `@a/..` does (`Package.Baseless`): then what is found is the scope, or the directory of all packages.
No other specifier of a package names such (`Cache.lodging_exact`).
-/

namespace Bundler

namespace Path

/-- A part of a path that is an entry of the directory before it. -/
structure IsEntry (s : String) : Prop where
  nonempty : s ≠ ""
  notHere : s ≠ "."
  notUp : s ≠ ".."

theorem isEntry_iff {s : String} : IsEntry s ↔ isPart s = true ∧ s ≠ ".." := by
  simp only [isPart, Bool.and_eq_true, Bool.not_eq_true', String.isEmpty_eq_false_iff, bne_iff_ne]
  constructor
  · rintro ⟨h₁, h₂, h₃⟩
    exact ⟨⟨h₁, h₂⟩, h₃⟩
  · rintro ⟨⟨h₁, h₂⟩, h₃⟩
    exact ⟨h₁, h₂, h₃⟩

/-- The path with more parts behind it. -/
def below (p : Path) (parts : List String) : Path :=
  ⟨p.root, p.parts ++ parts⟩

theorem pieces_of_noSlash {name : String} (h : '/' ∉ name.toList) : Text.pieces '/' name = [name] := by
  unfold Text.pieces
  rw [List.splitOn_eq_singleton h, List.map_singleton, String.ofList_toList]

theorem child_of_noSlash (p : Path) {name : String} (h : '/' ∉ name.toList) :
    p.child name = p.below ([name].filter isPart) := by
  have hroot : rootOf name = .none := by
    unfold rootOf
    cases hname : name.toList with
    | nil => rfl
    | cons c cs =>
      have hc : c ≠ '/' := fun heq => h (by simp [hname, heq])
      rw [List.takeWhile_cons_of_neg (by simpa using hc)]
      rfl
  unfold child ofString
  rw [hroot, pieces_of_noSlash h]
  rfl

theorem foldl_child : ∀ (names : List String) (p : Path), (∀ name ∈ names, '/' ∉ name.toList) →
    names.foldl child p = p.below (names.filter isPart)
  | [], p, _ => by simp [below]
  | name :: names, p, h => by
    obtain ⟨hname, hnames⟩ := List.forall_mem_cons.1 h
    rw [List.foldl_cons, child_of_noSlash p hname, foldl_child names _ hnames]
    unfold below
    rw [List.append_assoc, ← List.filter_append]
    rfl

theorem text_below {p : Path} (hp : p.parts ≠ []) {parts : List String} (hparts : parts ≠ []) :
    (p.below parts).text = p.text ++ "/" ++ "/".intercalate parts := by
  rw [text_eq (by simp [below, hp]), text_eq (by simp [hp])]
  show p.root.text ++ "/".intercalate (p.parts ++ parts) = _
  rw [String.intercalate_append_of_ne_nil hp hparts]
  simp only [String.append_assoc]

/-- A path is no longer than those below it. -/
theorem utf8ByteSize_text_le (p : Path) (hp : p.parts ≠ []) (parts : List String) :
    p.text.utf8ByteSize ≤ (p.below parts).text.utf8ByteSize := by
  by_cases hnone : parts = []
  · rw [hnone, below, List.append_nil]
  · rw [text_below hp hnone]
    simp only [String.utf8ByteSize_append]
    omega

end Path

namespace Tree

variable {t : Tree}

/-! ### Walks that are put together -/

section

variable {enter : Location → List String → Except Errno Location} {l : Location}

/-- A walk goes on from a directory: where it is, above it, at an entry of it, or where a link leads. -/
theorem walkFrom_cons_iff {dir : Location} {c : String} {cs : List String} :
    t.walkFrom .followed enter dir (c :: cs) = .ok l ↔ t.isDirAt dir = true ∧
      if c = "" ∨ c = "." then t.walkFrom .followed enter dir cs = .ok l
      else if c = ".." then t.walkFrom .followed enter dir.dropLast cs = .ok l
      else c.utf8ByteSize ≤ 255 ∧ match t.get? (dir ++ [c]) with
        | some (.link target) => enter (targetStart dir target) (targetParts target ++ cs) = .ok l
        | _ => t.walkFrom .followed enter (dir ++ [c]) cs = .ok l := by
  have hisDir : t.isDirAt dir = true ↔ ∃ s, t.get? dir = some (.dir s) := isDirAt_iff
  conv_lhs => unfold walkFrom
  split
  · next hnone => simp [hisDir, hnone]
  · next s hs =>
    rw [and_iff_right (hisDir.2 ⟨s, hs⟩)]
    simp only [Bool.or_eq_true, String.isEmpty_iff, decide_eq_true_eq]
    by_cases hskip : c = "" ∨ c = "."
    · rw [if_pos hskip, if_pos hskip]
    rw [if_neg hskip, if_neg hskip]
    by_cases hup : c = ".."
    · rw [if_pos hup, if_pos hup]
    rw [if_neg hup, if_neg hup, if_neg (by simp)]
    by_cases hlong : 255 < c.utf8ByteSize
    · simp [hlong]
    · rw [if_neg hlong, and_iff_right (Nat.le_of_not_lt hlong)]
      cases hc : t.get? (dir ++ [c]) with
      | none => rfl
      | some e => cases e <;> simp
  · next hother hs =>
    refine iff_of_false (by simp) ?_
    rintro ⟨hdir, -⟩
    obtain ⟨stamp, hdir⟩ := hisDir.1 hdir
    exact hother stamp (Option.some.inj (hs.symm.trans hdir))

theorem walkFrom_append {n : Nat} {ds : List String} (hwalk : t.walk .followed n = t.walkFrom .followed enter)
    (henter : ∀ dir cs, enter dir (cs ++ ds) = .ok l → ∃ m k, enter dir cs = .ok m ∧ t.walk .followed k m ds = .ok l) :
    ∀ (cs : List String) {dir : Location}, t.walkFrom .followed enter dir (cs ++ ds) = .ok l →
      ∃ m k, t.walkFrom .followed enter dir cs = .ok m ∧ t.walk .followed k m ds = .ok l
  | [], dir, h => ⟨dir, n, rfl, by rw [hwalk]; exact h⟩
  | c :: cs, dir, h => by
    have ih := @walkFrom_append n ds hwalk henter cs
    rw [List.cons_append] at h
    obtain ⟨hdir, h⟩ := walkFrom_cons_iff.1 h
    simp only [walkFrom_cons_iff, hdir, true_and]
    split_ifs at h ⊢
    · exact ih h
    · exact ih h
    · obtain ⟨hshort, h⟩ := h
      simp only [hshort, true_and]
      split at h
      · rw [← List.append_assoc] at h
        exact henter _ _ h
      · exact ih h

end

/-- A walk along parts and more parts is a walk along the first ones, and one from where it ends. -/
theorem walk_append {ds : List String} {l : Location} : ∀ (n : Nat) {dir : Location} {cs : List String},
    t.walk .followed n dir (cs ++ ds) = .ok l →
      ∃ m k, t.walk .followed n dir cs = .ok m ∧ t.walk .followed k m ds = .ok l
  | 0, _, cs, h => walkFrom_append (n := 0) rfl (fun _ _ h => by cases h) cs h
  | n + 1, _, cs, h => walkFrom_append (n := n + 1) rfl (fun _ _ h => walk_append n h) cs h

/-- However many links there are to spare, a walk goes from part to part, and where it enters a link it is a walk
again. -/
theorem exists_walkFrom (t : Tree) (n : Nat) : ∃ enter, t.walk .followed n = t.walkFrom .followed enter ∧
    ∀ {dir cs l}, enter dir cs = .ok l → ∃ k, t.walk .followed k dir cs = .ok l := by
  cases n with
  | zero => exact ⟨_, rfl, nofun⟩
  | succ n => exact ⟨_, rfl, fun h => ⟨n, h⟩⟩

theorem isDirAt_of_walk {n : Nat} {dir l : Location} {cs : List String} (h : t.walk .followed n dir cs = .ok l)
    (hl : t.isDirAt l = true) : t.isDirAt dir = true := by
  obtain ⟨enter, hwalk, -⟩ := exists_walkFrom t n
  rw [hwalk] at h
  cases cs with
  | nil =>
    cases h
    exact hl
  | cons c cs => exact (walkFrom_cons_iff.1 h).1

/-- Each part is an entry of the directory before it, a directory or a link that leads to one. -/
inductive Descends (t : Tree) : Location → List String → Location → Prop where
  | here (dir : Location) : Descends t dir [] dir
  | dir {dir l : Location} {c : String} {cs : List String} (h : t.isDirAt (dir ++ [c]) = true)
    (rest : Descends t (dir ++ [c]) cs l) : Descends t dir (c :: cs) l
  | link {dir m l : Location} {c target : String} {cs : List String} {n : Nat}
    (h : t.get? (dir ++ [c]) = some (.link target))
    (hm : t.walk .followed n (targetStart dir target) (targetParts target) = .ok m)
    (rest : Descends t m cs l) : Descends t dir (c :: cs) l

/-- A walk along entries takes one at a time. -/
theorem walk_cons_of_isEntry {n : Nat} {dir l : Location} {c : String} {cs : List String} (hc : Path.IsEntry c)
    (h : t.walk .followed n dir (c :: cs) = .ok l) : t.walk .followed n (dir ++ [c]) cs = .ok l ∨
      ∃ target m k j, t.get? (dir ++ [c]) = some (.link target) ∧
        t.walk .followed k (targetStart dir target) (targetParts target) = .ok m ∧ t.walk .followed j m cs = .ok l := by
  have hskip : ¬(c = "" ∨ c = ".") := fun h => h.elim hc.nonempty hc.notHere
  obtain ⟨enter, hwalk, henter⟩ := exists_walkFrom t n
  rw [hwalk, walkFrom_cons_iff, if_neg hskip, if_neg hc.notUp, ← hwalk] at h
  obtain ⟨-, -, h⟩ := h
  split at h
  · next target htarget =>
    obtain ⟨k, hk⟩ := henter h
    obtain ⟨m, j, hm, hj⟩ := walk_append k hk
    exact .inr ⟨target, m, k, j, htarget, hm, hj⟩
  · exact .inl h

theorem descends_of_walk {l : Location} (hl : t.isDirAt l = true) : ∀ {cs : List String} {n : Nat} {dir : Location},
    (∀ c ∈ cs, Path.IsEntry c) → t.walk .followed n dir cs = .ok l → t.Descends dir cs l
  | [], n, dir, _, h => by
    cases n <;> (cases h; exact .here _)
  | c :: cs, n, dir, hcs, h => by
    obtain ⟨hc, hcs⟩ := List.forall_mem_cons.1 hcs
    rcases walk_cons_of_isEntry hc h with h | ⟨target, m, k, j, htarget, hm, hj⟩
    · exact .dir (isDirAt_of_walk h hl) (descends_of_walk hl hcs h)
    · exact .link htarget hm (descends_of_walk hl hcs hj)

/-- Where no link is on the way, the parts are the last names on it. -/
theorem Descends.eq_of_clear {dir l : Location} {cs : List String} (h : t.Descends dir cs l)
    (hcs : ∀ c ∈ cs, Path.IsEntry c) (hclear : t.Clear dir cs) : l = dir ++ cs := by
  induction h with
  | here => simp
  | @dir dir l c cs h rest ih =>
    obtain ⟨hc, hcs⟩ := List.forall_mem_cons.1 hcs
    rw [clear_cons, if_neg hc.notUp] at hclear
    rw [ih hcs hclear.2, List.append_assoc]
    rfl
  | @link dir m l c target cs n h hm rest ih =>
    obtain ⟨hc, hcs⟩ := List.forall_mem_cons.1 hcs
    rw [clear_cons, if_neg hc.notUp] at hclear
    exact absurd h (hclear.1 target)

/-- The way into an entry that is no link and out again. -/
theorem eq_of_walk_up {n : Nat} {dir l : Location} {c : String} (hc : Path.IsEntry c) (hclear : t.Clear dir [c, ".."])
    (h : t.walk .followed n dir [c, ".."] = .ok l) : l = dir := by
  rw [clear_cons, if_neg hc.notUp] at hclear
  rcases walk_cons_of_isEntry hc h with h | ⟨target, -, -, -, htarget, -⟩
  · obtain ⟨enter, hwalk, -⟩ := exists_walkFrom t n
    rw [hwalk, walkFrom_cons_iff, if_neg (by decide), if_pos rfl] at h
    obtain ⟨-, h⟩ := h
    cases h
    exact List.dropLast_concat
  · exact absurd htarget (hclear.1 target)

/-- The way to a directory below another goes through that. -/
theorem locate_below {cwd l : Location} {p : Path} (hp : p.parts ≠ []) {parts : List String}
    (h : t.locate cwd (p.below parts) = .ok l) :
    ∃ m k, t.locate cwd p = .ok m ∧ t.walk .followed k m parts = .ok l := by
  have hlength := p.utf8ByteSize_text_le hp parts
  unfold locate at h ⊢
  split at h
  · cases h
  · next hlong =>
    rw [if_neg (by omega)]
    exact walk_append 40 h

end Tree

/-! ### The levels of a name -/

namespace Package

open Text

/-- The directories on the way to that of a name, from the directory of all packages. -/
def levels (n : String) : List String :=
  (pieces '/' n).filter Path.isPart

/-- A name is told by its levels: one of its own, or that of a scope and one in it. -/
structure Lodges (n : String) : Prop where
  text : "/".intercalate (levels n) = n
  count : (levels n).length = if n.toList.head? = some '@' then 2 else 1
  entries : ∀ level ∈ levels n, Path.IsEntry level

/-- A scope without anything in it that is an entry. -/
def Baseless (n : String) : Prop :=
  ∃ scope, scope.toList.head? = some '@' ∧ ∃ base ∈ [[], [""], ["."], [".."]], pieces '/' n = scope :: base

theorem intercalate_pieces (n : String) : "/".intercalate (pieces '/' n) = n := by
  unfold pieces
  rw [← String.toList_inj, String.toList_intercalate, List.map_map]
  simp [Function.comp_def]

theorem isEntry_of_at {s : String} (h : s.toList.head? = some '@') : Path.IsEntry s := by
  constructor <;> (rintro rfl; cases h)

/-- A scope and what stands behind it. -/
theorem pieces_of_scope {n : String} {cs ds : List Char} (hn : n.toList = '@' :: (cs ++ '/' :: ds)) (hcs : '/' ∉ cs)
    (hds : '/' ∉ ds) : pieces '/' n = [String.ofList ('@' :: cs), String.ofList ds] := by
  have hscope : '/' ∉ '@' :: cs := by simpa using hcs
  unfold pieces
  rw [hn, ← List.cons_append, List.splitOn_append_cons_self_of_not_mem hscope, List.splitOn_eq_singleton hds]
  rfl

/-- A name is in one piece, or it is a scope with one piece in it or none. -/
theorem pieces_of_narrow {n : String} (h : Narrow n.toList) : (n.toList.head? ≠ some '@' ∧ pieces '/' n = [n]) ∨
    n.toList.head? = some '@' ∧ ∃ scope base, scope.toList.head? = some '@' ∧ base.length ≤ 1 ∧
      pieces '/' n = scope :: base := by
  generalize hcs : n.toList = cs at h
  cases h with
  | plain hat hslash =>
    exact .inl ⟨fun hhead => hat (List.mem_of_mem_head? hhead), Path.pieces_of_noSlash (hcs ▸ hslash)⟩
  | alone hat hslash =>
    refine .inr ⟨rfl, n, [], by rw [hcs]; rfl, by simp, Path.pieces_of_noSlash ?_⟩
    rw [hcs]
    simpa using hslash
  | @within cs ds hat hslash hat' hslash' =>
    exact .inr ⟨rfl, String.ofList ('@' :: cs), [String.ofList ds], by simp, le_rfl, pieces_of_scope hcs hslash hslash'⟩

/-- Where every piece is an entry, the pieces are the levels. -/
theorem lodges_of_isEntry {n : String} (hcount : (pieces '/' n).length = if n.toList.head? = some '@' then 2 else 1)
    (hentries : ∀ piece ∈ pieces '/' n, Path.IsEntry piece) : Lodges n := by
  have hlevels : levels n = pieces '/' n :=
    List.filter_eq_self.2 fun piece hpiece => (Path.isEntry_iff.1 (hentries piece hpiece)).1
  constructor <;> rw [hlevels]
  · exact intercalate_pieces n
  · exact hcount
  · exact hentries

/-- It is the scope, or what is above the scope. -/
theorem Baseless.levels {n : String} (h : Baseless n) : ∃ scope, scope.toList.head? = some '@' ∧
    (levels n = [scope] ∨ levels n = [scope, ".."]) := by
  obtain ⟨scope, hat, base, hbase, hpieces⟩ := h
  have hscope := (Path.isEntry_iff.1 (isEntry_of_at hat)).1
  refine ⟨scope, hat, ?_⟩
  unfold Package.levels
  rw [hpieces, List.filter_cons_of_pos hscope]
  simp only [List.mem_cons, List.not_mem_nil, or_false] at hbase
  rcases hbase with rfl | rfl | rfl | rfl
  · exact .inl rfl
  · exact .inl rfl
  · exact .inl rfl
  · exact .inr rfl

/-- What doesn't begin with a dot lodges, unless it is a scope without a base. -/
theorem lodges_iff {n : String} (h : Narrow n.toList) (hne : n ≠ "") (hdot : n.toList.head? ≠ some '.') :
    Lodges n ↔ ¬Baseless n := by
  constructor
  · intro hlodges hbaseless
    obtain ⟨scope, hat, hlevels | hlevels⟩ := hbaseless.levels
    · have hcount := hlodges.count
      obtain rfl : scope = n := by simpa [hlevels] using hlodges.text
      rw [hlevels, if_pos hat] at hcount
      cases hcount
    · exact (hlodges.entries ".." (by simp [hlevels])).notUp rfl
  · intro hbased
    rcases pieces_of_narrow h with ⟨hat, hpieces⟩ | ⟨hat, scope, base, hscope, hlength, hpieces⟩
    · have hentry : Path.IsEntry n := ⟨hne, by rintro rfl; exact hdot rfl, by rintro rfl; exact hdot rfl⟩
      refine lodges_of_isEntry ?_ ?_ <;> rw [hpieces]
      · rw [if_neg hat]
        rfl
      · simpa using hentry
    · obtain ⟨b, rfl, hb⟩ : ∃ b, base = [b] ∧ Path.IsEntry b := by
        match base, hlength with
        | [], _ => exact absurd ⟨scope, hscope, [], by simp, hpieces⟩ hbased
        | [b], _ =>
          have hb : [b] ∉ [[], [""], ["."], [".."]] := fun hb => hbased ⟨scope, hscope, [b], hb, hpieces⟩
          simp only [List.mem_cons, List.not_mem_nil, or_false, List.cons.injEq, and_true, reduceCtorEq, false_or,
            not_or] at hb
          exact ⟨b, rfl, hb.1, hb.2.1, hb.2.2⟩
      refine lodges_of_isEntry ?_ ?_ <;> rw [hpieces]
      · rw [if_pos hat]
        rfl
      · simpa using ⟨isEntry_of_at hscope, hb⟩

theorem lodges_iff_of_bare {s n : String} (hbare : isBare s = .ok true) (hn : nameOf s = .ok n) :
    Lodges n ↔ ¬Baseless n := by
  obtain ⟨-, hchars⟩ := isBare_eq_ok_true.1 hbare
  obtain ⟨c, hc, hslash⟩ := nameable_of_bare hbare
  have hhead := head?_nameChars_of_ne hc hslash
  refine lodges_iff (narrow_of_nameOf hn) ?_ ?_
  all_goals obtain ⟨-, rfl⟩ := nameOf_eq_ok_iff.1 hn
  · intro hnone
    rw [String.ofList_eq_empty_iff.1 hnone] at hhead
    cases hhead
  · rw [String.toList_ofList, hhead]
    rintro ⟨⟩
    obtain ⟨r, hr⟩ := List.head?_eq_some_iff.1 hc
    simp [hr, isBareChars] at hchars

end Package

namespace Cache

variable {c : Cache} {t : Tree} {cwd : Location}

theorem packageDir_eq {s n : String} (hn : Package.nameOf s = .ok n) :
    c.packageDir s = .ok (c.packages.below (Package.levels n)) := by
  unfold packageDir
  rw [hn]
  show Except.ok (c.dirOf n) = _
  unfold dirOf
  rw [Path.foldl_child _ _ fun piece => Package.not_mem_of_mem_pieces]
  rfl

/-- Where a package is installed, the directory of all packages is there, and its own is found from that. -/
theorem Has.locate {s n : String} (h : c.Has t cwd s) (hn : Package.nameOf s = .ok n) :
    ∃ top k dir, t.locate cwd c.packages = .ok top ∧
      t.locate cwd (c.packages.below (Package.levels n)) = .ok dir ∧ t.isDirAt dir = true ∧
      t.walk .followed k top (Package.levels n) = .ok dir := by
  obtain ⟨p, stamp, hp, -, hstat⟩ := (isInstalled_iff c).1 h
  rw [packageDir_eq hn] at hp
  cases hp
  obtain ⟨dir, hdir, hentry⟩ := Tree.stat_eq_ok_iff.1 hstat
  have hparts : c.packages.parts ≠ [] := List.append_ne_nil_of_right_ne_nil _ (List.cons_ne_nil "node_modules" [])
  obtain ⟨top, k, htop, hwalk⟩ := Tree.locate_below hparts hdir
  exact ⟨top, k, dir, htop, hdir, Tree.isDirAt_iff.2 ⟨stamp, hentry⟩, hwalk⟩

/-- What names a package leads to a directory that lies below that of all packages as its name says. Only a scope
without a base leads to the scope, or back to the directory of all packages. -/
theorem lodging_exact {s : String} (hbare : Package.isBare s = .ok true) : ∃ n, Package.nameOf s = .ok n ∧
    (∀ c : Cache, c.packageDir s = .ok (c.packages.below (Package.levels n))) ∧
    (Package.Lodges n ↔ ¬Package.Baseless n) ∧
    ∀ (c : Cache) (t : Tree) (cwd : Location), c.Has t cwd s → ∃ top dir, t.locate cwd c.packages = .ok top ∧
      t.locate cwd (c.packages.below (Package.levels n)) = .ok dir ∧ t.isDirAt dir = true ∧
      (Package.Lodges n → t.Descends top (Package.levels n) dir ∧
        (t.Clear top (Package.levels n) → dir = top ++ Package.levels n)) ∧
      (Package.Baseless n → t.Clear top (Package.levels n) → ∃ scope, scope.toList.head? = some '@' ∧
        (Package.levels n = [scope] ∧ dir = top ++ [scope] ∨ Package.levels n = [scope, ".."] ∧ dir = top)) := by
  obtain ⟨n, -, hn, -⟩ := Package.exists_nameOf hbare
  refine ⟨n, hn, fun c => packageDir_eq hn, Package.lodges_iff_of_bare hbare hn, fun c t cwd hhas => ?_⟩
  obtain ⟨top, k, dir, htop, hdir, hisDir, hwalk⟩ := hhas.locate hn
  refine ⟨top, dir, htop, hdir, hisDir, fun h => ?_, fun h hclear => ?_⟩
  · have hdescends := Tree.descends_of_walk hisDir h.entries hwalk
    exact ⟨hdescends, hdescends.eq_of_clear h.entries⟩
  · obtain ⟨scope, hat, hlevels | hlevels⟩ := h.levels
    · refine ⟨scope, hat, .inl ⟨hlevels, ?_⟩⟩
      rw [hlevels] at hwalk hclear
      have hentries : ∀ c ∈ [scope], Path.IsEntry c := by simpa using Package.isEntry_of_at hat
      exact (Tree.descends_of_walk hisDir hentries hwalk).eq_of_clear hentries hclear
    · refine ⟨scope, hat, .inr ⟨hlevels, ?_⟩⟩
      rw [hlevels] at hwalk hclear
      exact Tree.eq_of_walk_up (Package.isEntry_of_at hat) hclear hwalk

section Scoped

/-- A tree in which one package is installed, in a scope. -/
def oneInScope : Tree where
  entries := [(["cache"], .dir (.change 0)), (["cache", "node_modules"], .dir (.change 0)),
    (["cache", "node_modules", "@a"], .dir (.change 0)), (["cache", "node_modules", "@a", "b"], .dir (.change 0))]

/-- The cache in that tree. -/
def theCache : Cache := ⟨Path.ofString "/cache"⟩

/-- The package is found where its name says. -/
theorem one_in_scope_found : Package.isBare "@a/b/c" = .ok true ∧ theCache.Has oneInScope [] "@a/b/c" ∧
    Package.Lodges "@a/b" ∧ ∃ top, oneInScope.locate [] theCache.packages = .ok top ∧
      oneInScope.isDirAt (top ++ ["@a", "b"]) = true := by
  have hbare : Package.isBare "@a/b/c" = .ok true := by rfl
  have hhas : theCache.Has oneInScope [] "@a/b/c" := by rfl
  have hpieces : Text.pieces '/' "@a/b" = ["@a", "b"] := by rfl
  have hlevels : Package.levels "@a/b" = ["@a", "b"] := by rfl
  have hbased : ¬Package.Baseless "@a/b" := by
    rintro ⟨scope, -, base, hbase, hcons⟩
    obtain ⟨-, rfl⟩ := List.cons.inj (hpieces.symm.trans hcons)
    simp at hbase
  obtain ⟨n, hn, -, hlodges, hfound⟩ := lodging_exact hbare
  obtain rfl : n = "@a/b" := by
    have hname : Package.nameOf "@a/b/c" = .ok "@a/b" := by rfl
    exact Except.ok.inj (hn.symm.trans hname)
  obtain ⟨top, dir, htop, -, hdir, hin, -⟩ := hfound theCache oneInScope [] hhas
  obtain ⟨-, hclear⟩ := hin (hlodges.2 hbased)
  refine ⟨hbare, hhas, hlodges.2 hbased, top, htop, ?_⟩
  obtain rfl : ["cache", "node_modules"] = top := Except.ok.inj htop
  rw [hlevels] at hclear
  rwa [hclear ⟨nofun, nofun, trivial⟩] at hdir

/-- No package has these names, and yet they count as installed where another one of the scope is. -/
theorem scopes_installed : Package.isBare "@a" = .ok true ∧ Package.isBare "@a/.." = .ok true ∧
    theCache.Has oneInScope [] "@a" ∧ theCache.Has oneInScope [] "@a/.." ∧
    theCache.packageDir "@a" = .ok (theCache.packages.below ["@a"]) ∧
    theCache.packageDir "@a/.." = .ok (theCache.packages.below ["@a", ".."]) ∧
    oneInScope.locate [] (theCache.packages.below ["@a", ".."]) = oneInScope.locate [] theCache.packages :=
  ⟨by rfl, by rfl, by rfl, by rfl, by rfl, by rfl, by rfl⟩

end Scoped

end Cache

end Bundler
