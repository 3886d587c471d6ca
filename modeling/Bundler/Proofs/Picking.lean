import Mathlib.Data.Nat.Digits.Defs
import Bundler.Proofs.Discovering
import Bundler.Proofs.Growing
import Bundler.Proofs.Lodging

/-!
# The newest node

A name begins with a version if there are three numbers at its front, written in digits of whatever scripts, with points
between them (`Version.Spells`). Versions are compared number by number, and any of them is newer than none
(`Version.Older`). Of the installs that the version manager holds, only those count whose node is there, and node is
that of an install such that no other one is newer; it is not found if there is none, and if the system refuses to say
what is there (`Toolchain.Refuses`) then that is what the search fails by (`Toolchain.locateNode_newest`).
-/

namespace Bundler

/-! ### Numbers -/

namespace Text

/-- The characters are digits of the number, of whatever scripts. -/
def Writes (cs : List Char) (n : Nat) : Prop :=
  cs ≠ [] ∧ ∃ ds : List Nat, cs.map digitValue? = ds.map some ∧ n = Nat.ofDigits 10 ds.reverse

/-- No digit is at the front. -/
def Undigited (cs : List Char) : Prop :=
  ∀ c ∈ cs.head?, digitValue? c = none

theorem ofDigits_eq (ds : List Nat) : ofDigits ds = Nat.ofDigits 10 ds.reverse := by
  induction ds using List.reverseRecOn with
  | nil => rfl
  | append_singleton ds d ih =>
    have hsnoc : ofDigits (ds ++ [d]) = 10 * ofDigits ds + d := by simp [ofDigits]
    rw [hsnoc, ih, List.reverse_concat, Nat.ofDigits_cons, Nat.add_comm]

/-- The leading digits are digits, and all that there are. -/
theorem spanDigits_front : ∀ cs : List Char, ∃ front, cs = front ++ (spanDigits cs).2 ∧
    front.map digitValue? = (spanDigits cs).1.map some ∧ Undigited (spanDigits cs).2
  | [] => ⟨[], rfl, rfl, nofun⟩
  | c :: cs => by
    obtain ⟨front, hcs, hds, hrest⟩ := spanDigits_front cs
    unfold spanDigits
    cases hc : digitValue? c with
    | none => exact ⟨[], rfl, rfl, by simpa [Undigited] using hc⟩
    | some d => exact ⟨c :: front, congrArg (c :: ·) hcs, by simp [hc, hds], hrest⟩

theorem spanDigits_append {rest : List Char} (hrest : Undigited rest) : ∀ {front : List Char} {ds : List Nat},
    front.map digitValue? = ds.map some → spanDigits (front ++ rest) = (ds, rest)
  | [], [], _ => by
    cases rest with
    | nil => rfl
    | cons c cs =>
      show spanDigits (c :: cs) = _
      unfold spanDigits
      rw [hrest c rfl]
  | c :: front, d :: ds, h => by
    obtain ⟨hc, hfront⟩ := List.cons.inj h
    show spanDigits (c :: (front ++ rest)) = _
    unfold spanDigits
    rw [hc]
    dsimp only
    rw [spanDigits_append hrest hfront]
    rfl

end Text

/-! ### Versions -/

namespace Version

open Text

theorem number?_eq_some_iff {cs rest : List Char} {n : Nat} : number? cs = some (n, rest) ↔
    ∃ digits, cs = digits ++ rest ∧ Writes digits n ∧ Undigited rest := by
  constructor
  · intro h
    obtain ⟨front, hcs, hds, hrest⟩ := spanDigits_front cs
    unfold number? at h
    split at h
    · cases h
    · next ds rest' hne hspan =>
      cases h
      rw [hspan] at hcs hds hrest
      refine ⟨front, hcs, ⟨?_, ds, hds, ofDigits_eq ds⟩, hrest⟩
      rintro rfl
      exact hne (List.map_eq_nil_iff.1 hds.symm)
  · rintro ⟨digits, rfl, ⟨hne, ds, hds, rfl⟩, hrest⟩
    unfold number?
    rw [spanDigits_append hrest hds, ← ofDigits_eq]
    cases ds with
    | nil => exact absurd (List.map_eq_nil_iff.1 hds) hne
    | cons d ds => rfl

theorem point?_eq_some_iff {cs rest : List Char} : point? cs = some rest ↔ cs = '.' :: rest := by
  unfold point?
  split <;> simp_all

/-- The text begins with the three numbers, with points between them. -/
def Begins (cs : List Char) (a b c : Nat) : Prop :=
  ∃ major minor patch rest, cs = major ++ '.' :: (minor ++ '.' :: (patch ++ rest)) ∧
    Writes major a ∧ Writes minor b ∧ Writes patch c ∧ Undigited rest

/-- The name begins with the version that has the three numbers, perhaps after a `v`. -/
def Spells (name : String) (a b c : Nat) : Prop :=
  Begins name.toList a b c ∨ ∃ cs, name.toList = 'v' :: cs ∧ Begins cs a b c

/-- The three numbers at the front of a text. -/
def numbers? (cs : List Char) : Option (List Nat) := do
  let (major, cs) ← number? cs
  let (minor, cs) ← number? (← point? cs)
  let (patch, _) ← number? (← point? cs)
  return [major, minor, patch]

theorem numbers?_eq_some_iff {cs : List Char} {version : List Nat} : numbers? cs = some version ↔
    ∃ a b c, version = [a, b, c] ∧ Begins cs a b c := by
  have hpoint : ∀ {cs}, Undigited ('.' :: cs) := by
    intro cs c hc
    obtain rfl : '.' = c := by simpa using hc
    decide
  unfold numbers?
  constructor
  · intro h
    simp only [Option.bind_eq_bind, Option.bind_eq_some_iff, Option.pure_def, Option.some.injEq, Prod.exists,
      number?_eq_some_iff, point?_eq_some_iff] at h
    obtain ⟨a, _, ⟨major, rfl, ha, -⟩, _, rfl, b, _, ⟨minor, rfl, hb, -⟩, _, rfl, c, rest, hpatch, rfl⟩ := h
    obtain ⟨patch, rfl, hc, hrest⟩ := hpatch
    exact ⟨a, b, c, rfl, major, minor, patch, rest, rfl, ha, hb, hc, hrest⟩
  · rintro ⟨a, b, c, rfl, major, minor, patch, rest, rfl, ha, hb, hc, hrest⟩
    rw [number?_eq_some_iff.2 ⟨major, rfl, ha, hpoint⟩]
    dsimp only [Option.bind_eq_bind, Option.bind_some]
    rw [point?_eq_some_iff.2 rfl]
    dsimp only [Option.bind_some]
    rw [number?_eq_some_iff.2 ⟨minor, rfl, hb, hpoint⟩]
    dsimp only [Option.bind_some]
    rw [point?_eq_some_iff.2 rfl]
    dsimp only [Option.bind_some]
    rw [number?_eq_some_iff.2 ⟨patch, rfl, hc, hrest⟩]
    rfl

/-- A text that begins with a number doesn't begin with a `v`. -/
theorem not_begins_v {cs : List Char} {a b c : Nat} : ¬Begins ('v' :: cs) a b c := by
  rintro ⟨_ | ⟨d, major⟩, minor, patch, rest, hcs, ⟨hne, ds, hds, -⟩, -⟩
  · exact hne rfl
  · cases hcs
    have hletter : digitValue? 'v' = none := by decide
    rw [List.map_cons, hletter] at hds
    cases ds <;> cases hds

theorem ofName?_eq_some_iff {name : String} {version : List Nat} : ofName? name = some version ↔
    ∃ a b c, version = [a, b, c] ∧ Spells name a b c := by
  by_cases hv : ∃ cs, name.toList = 'v' :: cs
  · obtain ⟨cs, hcs⟩ := hv
    have hname : ofName? name = numbers? cs := by
      unfold ofName?
      rw [hcs]
      rfl
    rw [hname, numbers?_eq_some_iff]
    simp [Spells, hcs, not_begins_v]
  · have hname : ofName? name = numbers? name.toList := by
      unfold ofName?
      split
      · next cs hcs => exact absurd ⟨cs, hcs⟩ hv
      · rfl
    rw [hname, numbers?_eq_some_iff]
    have hnone : ∀ cs, name.toList ≠ 'v' :: cs := fun cs hcs => hv ⟨cs, hcs⟩
    simp [Spells, hnone]

theorem ofName?_of_spells {name : String} {a b c : Nat} (h : Spells name a b c) : ofName? name = some [a, b, c] :=
  ofName?_eq_some_iff.2 ⟨a, b, c, rfl, h⟩

/-- The other name has a larger version, or one at all where this name has none. -/
def Older (name other : String) : Prop :=
  ∃ a b c, Spells other a b c ∧ ∀ a' b' c', Spells name a' b' c' → a' < a ∨ a' = a ∧ (b' < b ∨ b' = b ∧ c' < c)

theorem Spells.unique {name : String} {a b c a' b' c' : Nat} (h : Spells name a b c) (h' : Spells name a' b' c') :
    a' = a ∧ b' = b ∧ c' = c := by
  simpa using (ofName?_of_spells h').symm.trans (ofName?_of_spells h)

theorem older_iff {name other : String} {a b c a' b' c' : Nat} (hother : Spells other a b c)
    (hname : Spells name a' b' c') : Older name other ↔ a' < a ∨ a' = a ∧ (b' < b ∨ b' = b ∧ c' < c) := by
  constructor
  · rintro ⟨x, y, z, hspells, hless⟩
    obtain ⟨rfl, rfl, rfl⟩ := hother.unique hspells
    exact hless a' b' c' hname
  · intro hless
    refine ⟨a, b, c, hother, fun x y z hspells => ?_⟩
    obtain ⟨rfl, rfl, rfl⟩ := hname.unique hspells
    exact hless

theorem less_iff {name other : String} : less (ofName? name) (ofName? other) = true ↔ Older name other := by
  cases hother : ofName? other with
  | none =>
    have hnone : ∀ a b c, ¬Spells other a b c := fun a b c h => by simp [ofName?_of_spells h] at hother
    simp [less, Older, hnone]
  | some version =>
    obtain ⟨a, b, c, rfl, hspells⟩ := ofName?_eq_some_iff.1 hother
    cases hname : ofName? name with
    | none =>
      have hnone : ∀ a b c, ¬Spells name a b c := fun a b c h => by simp [ofName?_of_spells h] at hname
      exact iff_of_true rfl ⟨a, b, c, hspells, fun a' b' c' h => absurd h (hnone a' b' c')⟩
    | some version' =>
      obtain ⟨a', b', c', rfl, hspells'⟩ := ofName?_eq_some_iff.1 hname
      rw [older_iff hspells hspells']
      simp [less, List.cons_lt_cons_iff]

example : Older "v9.11.2" "018.0.0" ∧ Older "system" "v9.11.2" :=
  ⟨less_iff.1 (by decide +kernel), less_iff.1 (by decide +kernel)⟩

theorem Older.asymm {u v : String} (h : Older u v) : ¬Older v u := by
  obtain ⟨a, b, c, hv, hless⟩ := h
  rintro ⟨a', b', c', hu, hless'⟩
  have hless := hless a' b' c' hu
  have hless' := hless' a b c hv
  omega

/-- Whatever else there is, it's newer than the one or older than the other. -/
theorem Older.or {u w : String} (h : Older u w) (v : String) : Older u v ∨ Older v w := by
  by_cases hv : ∃ a b c, Spells v a b c
  · obtain ⟨a', b', c', hv⟩ := hv
    obtain ⟨a, b, c, hw, hless⟩ := h
    rw [older_iff hw hv]
    refine or_iff_not_imp_right.2 fun hnot => ⟨a', b', c', hv, fun x y z hu => ?_⟩
    have hless := hless x y z hu
    omega
  · obtain ⟨a, b, c, hw, -⟩ := h
    exact .inr ⟨a, b, c, hw, fun a' b' c' h => absurd ⟨a', b', c', h⟩ hv⟩

/-- The best so far is one of those that were looked at, and none of them is newer. -/
theorem newest_foldl (names : List String) (best : String) :
    let v := names.foldl (fun best n => if less (ofName? best) (ofName? n) then n else best) best
    v ∈ best :: names ∧ ∀ w ∈ best :: names, ¬Older v w := by
  induction names generalizing best with
  | nil => simpa using fun h : Older best best => h.asymm h
  | cons n names ih =>
    dsimp only
    rw [List.foldl_cons]
    split
    · next hnewer =>
      obtain ⟨hmem, hnewest⟩ := ih n
      refine ⟨List.mem_cons_of_mem best hmem, List.forall_mem_cons.2 ⟨fun hold => ?_, hnewest⟩⟩
      -- it would be older than the one which took its place
      rcases hold.or n with hold | hold
      · exact hnewest n (List.mem_cons_self ..) hold
      · exact hold.asymm (less_iff.1 hnewer)
    · next hnot =>
      obtain ⟨hmem, hnewest⟩ := ih best
      obtain ⟨hbest, hnames⟩ := List.forall_mem_cons.1 hnewest
      refine ⟨?_, List.forall_mem_cons.2 ⟨hbest, List.forall_mem_cons.2 ⟨fun hold => ?_, hnames⟩⟩⟩
      · rcases List.mem_cons.1 hmem with hv | hv
        · rw [hv]
          exact List.mem_cons_self ..
        · exact List.mem_cons_of_mem best (List.mem_cons_of_mem n hv)
      · rcases hold.or best with hold | hold
        · exact hbest hold
        · exact hnot (less_iff.2 hold)

/-- The name is one of those, and none of them is newer. -/
theorem newest?_eq_some {names : List String} {v : String} (h : newest? names = some v) :
    v ∈ names ∧ ∀ w ∈ names, ¬Older v w := by
  cases names with
  | nil => cases h
  | cons name names =>
    cases h
    exact newest_foldl names name

theorem newest?_eq_none {names : List String} (h : newest? names = none) : names = [] := by
  cases names with
  | nil => rfl
  | cons name names => cases h

end Version

/-! ### What is at the end of a path -/

/-- Something is at the end of the path. -/
def Host.Holds (h : Host) (p : Path) : Prop :=
  '\x00' ∉ p.text.toList ∧ ∃ e, h.tree.stat h.cwd p = .ok e

/-- The file system refuses to say what is at the end of the path. -/
def Host.Withholds (h : Host) (p : Path) (e : Errno) : Prop :=
  '\x00' ∉ p.text.toList ∧ h.tree.stat h.cwd p = .error e ∧ Action.meansAbsent e = false

namespace Action

variable {h : Host} {p : Path}

theorem entry_run_of_withholds {e : Errno} (he : h.Withholds p e) : ( entry? p).run h = (.error (refused e p), h) := by
  obtain ⟨hnul, hstat, habsent⟩ := he
  unfold entry?
  rw [if_neg (by simpa using hnul), run_get_bind, hstat]
  dsimp only
  rw [habsent]
  rfl

/-- Unless the file system refuses, it's told what is there. -/
theorem entry_run (hknown : ∀ e, ¬h.Withholds p e) : ∃ e, ( entry? p).run h = (.ok e, h) ∧
    ∀ x, e = some x ↔ '\x00' ∉ p.text.toList ∧ h.tree.stat h.cwd p = .ok x := by
  unfold entry?
  by_cases hnul : '\x00' ∈ p.text.toList
  · rw [if_pos (by simpa using hnul)]
    exact ⟨none, rfl, by simp [hnul]⟩
  · rw [if_neg (by simpa using hnul), run_get_bind]
    cases hstat : h.tree.stat h.cwd p with
    | ok x => exact ⟨some x, rfl, by simp [hnul]⟩
    | error e =>
      dsimp only
      cases habsent : meansAbsent e with
      | true => exact ⟨none, rfl, by simp⟩
      | false => exact absurd ⟨hnul, hstat, habsent⟩ (hknown e)

theorem exists?_run_of_withholds {e : Errno} (he : h.Withholds p e) : (exists? p).run h = (.error (refused e p), h) :=
  run_bind_of_error (entry_run_of_withholds he) _

theorem exists?_run (hknown : ∀ e, ¬h.Withholds p e) : ∃ b, (exists? p).run h = (.ok b, h) ∧
    (b = true ↔ h.Holds p) := by
  obtain ⟨e, hr, he⟩ := entry_run hknown
  refine ⟨e.isSome, (run_bind_of_ok hr).trans rfl, ?_⟩
  rw [Option.isSome_iff_exists]
  simp only [he, Host.Holds, exists_and_left]

theorem reads_exists? (p : Path) : (exists? p).Reads :=
  (reads_entry p).bind fun _ => .pure _

theorem observe_run {α : Type} {f : Tree → Location → Except Errno α} {x : α} (hnul : '\x00' ∉ p.text.toList)
    (hx : f h.tree h.cwd = .ok x) : (observe p f).run h = (.ok x, h) := by
  unfold observe checked
  rw [if_neg (by simpa using hnul), pure_bind, run_get_bind, hx]
  rfl

theorem observe_run_of_error {α : Type} {f : Tree → Location → Except Errno α} {e : Errno}
    (hnul : '\x00' ∉ p.text.toList) (he : f h.tree h.cwd = .error e) :
    (observe p f).run h = (.error (refused e p), h) := by
  unfold observe checked
  rw [if_neg (by simpa using hnul), pure_bind, run_get_bind, he]
  rfl

theorem Reads.seenAt_of_run {α : Type} {a : Action α} (ha : a.Reads) {r : Except Failure α} (hr : a.run h = (r, h)) :
    a.seenAt h.tree h.cwd = r :=
  (Prod.mk.inj ((ha h).symm.trans hr)).1

/-- Whether the path is that of a directory. -/
theorem isDir_run (hknown : ∀ e, ¬h.Withholds p e) : ∃ b, (isDir p).run h = (.ok b, h) ∧
    (b = true ↔ '\x00' ∉ p.text.toList ∧ ∃ s, h.tree.stat h.cwd p = .ok (.dir s)) := by
  obtain ⟨e, hr, -⟩ := entry_run hknown
  have hdir : ∃ b, (isDir p).run h = (.ok b, h) := by
    unfold isDir
    rw [run_bind_of_ok hr]
    split
    · exact ⟨true, rfl⟩
    · exact ⟨false, rfl⟩
  obtain ⟨b, hb⟩ := hdir
  refine ⟨b, hb, ?_⟩
  rw [← wp_isDir_iff, wp_of_run hb]

end Action

/-- Where something can't be told of an element, the list fails by the first of these. -/
theorem Except.filterM_of_error {α ε : Type} {p : α → Except ε Bool} {xs : List α}
    (h : ∃ x ∈ xs, ∃ e, p x = .error e) : ∃ x ∈ xs, ∃ e, p x = .error e ∧ xs.filterM p = .error e := by
  have haux : ∃ x ∈ xs, ∃ e, p x = .error e ∧ ∀ acc, xs.filterAuxM p acc = .error e := by
    induction xs with
    | nil => simp at h
    | cons x xs ih =>
      cases hx : p x with
      | error e => exact ⟨x, List.mem_cons_self .., e, hx, fun acc => by rw [List.filterAuxM, hx]; rfl⟩
      | ok b =>
        obtain ⟨y, hy, e, he, hrest⟩ := ih (by simpa [hx] using h)
        exact ⟨y, List.mem_cons_of_mem x hy, e, he, fun acc => by rw [List.filterAuxM, hx]; exact hrest _⟩
  obtain ⟨x, hx, e, he, hlist⟩ := haux
  exact ⟨x, hx, e, he, by rw [List.filterM, hlist]; rfl⟩

/-! ### The version manager -/

namespace Tree

/-- The names in a directory are listed, or it's refused. -/
theorem list_cases (t : Tree) (dir : Location) : (∃ e, t.list dir = .error e) ∨ t.list dir = .ok (t.namesIn dir) := by
  unfold list
  cases t.unlisted.lookup dir with
  | none => exact .inr rfl
  | some e => exact .inl ⟨e, rfl⟩

variable {target : String} (h : '/' ∉ target.toList)

include h

theorem targetStart_of_noSlash (dir : Location) : targetStart dir target = dir := by
  unfold targetStart
  rw [if_neg]
  rw [List.isPrefixOf_iff_prefix]
  exact fun hstart => h (hstart.subset (by simp))

theorem targetParts_of_noSlash (hne : target ≠ "") : targetParts target = [target] := by
  unfold targetParts
  dsimp only
  rw [if_neg, Path.pieces_of_noSlash h]
  · simp [hne]
  · rw [List.isSuffixOf_iff_suffix]
    exact fun hend => h (hend.subset (by simp))

end Tree

namespace Toolchain

/-- The directory of the version manager's installs. -/
def versionsOf (home : Path) : Path :=
  ((home.child ".nvm").child "versions").child "node"

section

variable (h : Host) (home : Path)

/-- The directory has an entry of that name. -/
def Installed (name : String) : Prop :=
  '\x00' ∉ (versionsOf home).text.toList ∧ ∃ dir stamp, h.tree.locate h.cwd (versionsOf home) = .ok dir ∧
    h.tree.get? dir = some (.dir stamp) ∧ name ∈ h.tree.namesIn dir

/-- And its program is there. -/
def Usable (name : String) : Prop :=
  Installed h home name ∧ h.Holds (programOf (versionsOf home) name)

/-- No other install whose program is there is newer. -/
def Newest (name : String) : Prop :=
  Usable h home name ∧ ∀ other, Usable h home other → ¬Version.Older name other

/-- The system doesn't say whether the installs have a directory, or which ones there are, or whether one of them has a
program. -/
inductive Refuses : Path → Errno → Prop
  | directory {e : Errno} (he : h.Withholds (versionsOf home) e) : Refuses (versionsOf home) e
  | names {e : Errno} {dir : Location} {stamp : Stamp} (hnul : '\x00' ∉ (versionsOf home).text.toList)
      (hlocate : h.tree.locate h.cwd (versionsOf home) = .ok dir) (hget : h.tree.get? dir = some (.dir stamp))
      (he : h.tree.list dir = .error e) : Refuses (versionsOf home) e
  | program {name : String} {e : Errno} (hname : Installed h home name)
      (he : h.Withholds (programOf (versionsOf home) name) e) : Refuses (programOf (versionsOf home) name) e

end

variable {h : Host} {home : Path}

/-- Of a list of names those are kept whose program is there, unless the file system refuses to say it of one. -/
theorem usable_run (versions : Path) (names : List String) :
    (∃ name ∈ names, ∃ e, h.Withholds (programOf versions name) e ∧
      (names.filterM fun name => Action.exists? (programOf versions name)).run h =
        (.error (Action.refused e (programOf versions name)), h)) ∨
    (∀ name ∈ names, ∀ e, ¬h.Withholds (programOf versions name) e) ∧ ∃ usable,
      (names.filterM fun name => Action.exists? (programOf versions name)).run h = (.ok usable, h) ∧
      ∀ name, name ∈ usable ↔ name ∈ names ∧ h.Holds (programOf versions name) := by
  have hreads : ∀ name, (Action.exists? (programOf versions name)).Reads := fun name => Action.reads_exists? _
  rw [Action.Reads.filterM hreads names h, Action.Reads.seenAt_filterM hreads]
  by_cases hknown : ∀ name ∈ names, ∀ e, ¬h.Withholds (programOf versions name) e
  · have hok : ∀ name ∈ names, ∃ b, (Action.exists? (programOf versions name)).seenAt h.tree h.cwd = .ok b ∧
        (b = true ↔ h.Holds (programOf versions name)) := by
      intro name hname
      obtain ⟨b, hr, hb⟩ := Action.exists?_run (hknown name hname)
      exact ⟨b, (hreads name).seenAt_of_run hr, hb⟩
    choose! told htold hholds using hok
    refine .inr ⟨hknown, names.filter told, by rw [Except.filterM_of_ok htold], fun name => ?_⟩
    rw [List.mem_filter]
    exact and_congr_right (hholds name)
  · push Not at hknown
    obtain ⟨name, hname, e, he⟩ := hknown
    have hfails := (hreads name).seenAt_of_run (Action.exists?_run_of_withholds he)
    obtain ⟨first, hfirst, f, hf, hlist⟩ := Except.filterM_of_error
      (p := fun name => (Action.exists? (programOf versions name)).seenAt h.tree h.cwd) ⟨name, hname, _, hfails⟩
    have hwithheld : ∃ e, h.Withholds (programOf versions first) e := by
      by_contra hnone
      obtain ⟨b, hr, -⟩ := Action.exists?_run (not_exists.1 hnone)
      nomatch hf.symm.trans ((hreads first).seenAt_of_run hr)
    obtain ⟨e, he⟩ := hwithheld
    obtain rfl : f = Action.refused e (programOf versions first) :=
      Except.error.inj (hf.symm.trans ((hreads first).seenAt_of_run (Action.exists?_run_of_withholds he)))
    exact .inl ⟨first, hfirst, e, he, by rw [hlist]⟩

theorem list_eq {dir : Location} (hlocate : h.tree.locate h.cwd (versionsOf home) = .ok dir) :
    (do h.tree.list (← h.tree.locate h.cwd (versionsOf home)) : Except Errno _) = h.tree.list dir := by
  rw [hlocate]
  rfl

section Located

variable {dir : Location} {stamp : Stamp} (hnul : '\x00' ∉ (versionsOf home).text.toList)
  (hlocate : h.tree.locate h.cwd (versionsOf home) = .ok dir) (hget : h.tree.get? dir = some (.dir stamp))

include hnul hlocate hget

theorem installed_iff (name : String) : Installed h home name ↔ name ∈ h.tree.namesIn dir := by
  constructor
  · rintro ⟨-, dir', -, hlocate', -, hname⟩
    obtain rfl := Except.ok.inj (hlocate'.symm.trans hlocate)
    exact hname
  · exact fun hname => ⟨hnul, dir, stamp, hlocate, hget, hname⟩

theorem not_refuses (hdir : ∀ e, ¬h.Withholds (versionsOf home) e) (hnames : h.tree.list dir = .ok (h.tree.namesIn dir))
    (hknown : ∀ name ∈ h.tree.namesIn dir, ∀ e, ¬h.Withholds (programOf (versionsOf home) name) e) (p : Path)
    (e : Errno) : ¬Refuses h home p e := by
  intro hrefuses
  cases hrefuses with
  | directory he => exact hdir e he
  | names _ hlocate' _ he =>
    obtain rfl := Except.ok.inj (hlocate'.symm.trans hlocate)
    nomatch he.symm.trans hnames
  | program hname he => exact hknown _ ((installed_iff hnul hlocate hget _).1 hname) e he

theorem isDir_run_of_there : (Action.isDir (versionsOf home)).run h = (.ok true, h) := by
  have hstat : h.tree.stat h.cwd (versionsOf home) = .ok (.dir stamp) := Tree.stat_eq_ok_iff.2 ⟨dir, hlocate, hget⟩
  have hknown : ∀ e, ¬h.Withholds (versionsOf home) e := fun e he => nomatch he.2.1.symm.trans hstat
  obtain ⟨b, hisDir, hb⟩ := Action.isDir_run hknown
  rwa [hb.2 ⟨hnul, stamp, hstat⟩] at hisDir

theorem managedNode_run_of_unlisted {e : Errno} (he : h.tree.list dir = .error e) :
    (managedNode home).run h = (.error (Action.refused e (versionsOf home)), h) :=
  (run_bind_of_ok (isDir_run_of_there hnul hlocate hget)).trans
    (run_bind_of_error (Action.observe_run_of_error hnul ((list_eq hlocate).trans he)) _)

/-- Where the directory is listed, it's asked of each name whether its program is there. -/
theorem managedNode_run_of_listed {names : List String} (hnames : h.tree.list dir = .ok names) :
    (managedNode home).run h =
      (names.filterM (fun name => Action.exists? (programOf (versionsOf home) name)) >>= fun usable =>
        pure ((Version.newest? usable).map (programOf (versionsOf home)))).run h :=
  (run_bind_of_ok (isDir_run_of_there hnul hlocate hget)).trans
    (run_bind_of_ok (Action.observe_run hnul ((list_eq hlocate).trans hnames)))

end Located

/-- Of the names whose program is there the newest is taken. -/
theorem newest_cases {usable : List String} (husable : ∀ name, Usable h home name ↔ name ∈ usable) :
    (∃ name, Newest h home name ∧ Version.newest? usable = some name) ∨
    (∀ name, ¬Usable h home name) ∧ Version.newest? usable = none := by
  cases hnewest : Version.newest? usable with
  | none =>
    obtain rfl := Version.newest?_eq_none hnewest
    exact .inr ⟨fun name => by simp [husable], rfl⟩
  | some name =>
    obtain ⟨hname, hnone⟩ := Version.newest?_eq_some hnewest
    exact .inl ⟨name, ⟨(husable name).2 hname, fun other hother => hnone other ((husable other).1 hother)⟩, rfl⟩

/-- The installs of the version manager, with what can be told of each, are all that the search for the newest looks
at. -/
theorem managedNode_cases (h : Host) (home : Path) :
    (∃ p e, Refuses h home p e ∧ (managedNode home).run h = (.error (Action.refused e p), h)) ∨
    (∀ p e, ¬Refuses h home p e) ∧
      ((∃ name, Newest h home name ∧
          (managedNode home).run h = (.ok (some (programOf (versionsOf home) name)), h)) ∨
        (∀ name, ¬Usable h home name) ∧ (managedNode home).run h = (.ok none, h)) := by
  by_cases hdir : ∃ e, h.Withholds (versionsOf home) e
  · obtain ⟨e, he⟩ := hdir
    have hfails : (Action.isDir (versionsOf home)).run h = (.error (Action.refused e (versionsOf home)), h) :=
      run_bind_of_error (Action.entry_run_of_withholds he) _
    exact .inl ⟨versionsOf home, e, .directory he, run_bind_of_error hfails _⟩
  have hdir := not_exists.1 hdir
  obtain ⟨b, hisDir, hb⟩ := Action.isDir_run hdir
  cases b with
  | false =>
    have hnone : ∀ name, ¬Installed h home name := by
      rintro name ⟨hnul, dir, stamp, hlocate, hget, -⟩
      exact nomatch hb.2 ⟨hnul, stamp, Tree.stat_eq_ok_iff.2 ⟨dir, hlocate, hget⟩⟩
    refine .inr ⟨fun p e hrefuses => ?_,
      .inr ⟨fun name husable => hnone name husable.1, (run_bind_of_ok hisDir).trans rfl⟩⟩
    cases hrefuses with
    | directory he => exact hdir e he
    | names hnul hlocate hget => exact nomatch hb.2 ⟨hnul, _, Tree.stat_eq_ok_iff.2 ⟨_, hlocate, hget⟩⟩
    | program hname => exact hnone _ hname
  | true =>
    obtain ⟨hnul, stamp, hstat⟩ := hb.1 rfl
    obtain ⟨dir, hlocate, hget⟩ := Tree.stat_eq_ok_iff.1 hstat
    have hinstalled := installed_iff hnul hlocate hget
    rcases h.tree.list_cases dir with ⟨e, he⟩ | hnames
    · exact .inl ⟨_, e, .names hnul hlocate hget he, managedNode_run_of_unlisted hnul hlocate hget he⟩
    have hrun := managedNode_run_of_listed hnul hlocate hget hnames
    rcases usable_run (versionsOf home) (h.tree.namesIn dir) with
      ⟨name, hname, e, he, hr⟩ | ⟨hknown, usable, hr, husable⟩
    · exact .inl ⟨_, e, .program ((hinstalled name).2 hname) he, hrun.trans (run_bind_of_error hr _)⟩
    · refine .inr ⟨not_refuses hnul hlocate hget hdir hnames hknown, ?_⟩
      have husable : ∀ name, Usable h home name ↔ name ∈ usable := fun name => by
        rw [husable, ← hinstalled]
        rfl
      rw [hrun, run_bind_of_ok hr]
      rcases newest_cases husable with ⟨name, hname, hnewest⟩ | ⟨hnone, hnewest⟩ <;> rw [hnewest]
      · exact .inl ⟨name, hname, rfl⟩
      · exact .inr ⟨hnone, rfl⟩

theorem firstThere_run_none : ∀ {ps : List Path}, (∀ p ∈ ps, ¬h.Holds p ∧ ∀ e, ¬h.Withholds p e) →
    (firstThere ps).run h = (.ok none, h)
  | [], _ => rfl
  | p :: ps, hnone => by
    obtain ⟨⟨hholds, hknown⟩, hrest⟩ := List.forall_mem_cons.1 hnone
    obtain ⟨b, hr, hb⟩ := Action.exists?_run hknown
    obtain rfl : b = false := by simpa using fun hb' => hholds (hb.1 hb')
    exact (run_bind_of_ok hr).trans (firstThere_run_none hrest)

/-- Where node is neither on the search path nor at a common place, it's for the version manager. -/
theorem locateNode_run {given : Option Path}
    (hsearch : SearchPath.find? h ((h.env.get? "PATH").getD SearchPath.standard) "node" = none)
    (hcommon : ∀ p ∈ h.candidates, ¬h.Holds (Path.ofString p) ∧ ∀ e, ¬h.Withholds (Path.ofString p) e)
    (hhome : given = some home ∨ given = none ∧ Path.ofHome h.home = .ok home) :
    (locateNode none given).run h = (managedNode home >>= fun found =>
      (match found with
      | some p => pure p
      | none => throw (fault nodeNotFound) : Action Path)).run h := by
  have hnone : (firstThere (h.candidates.map Path.ofString)).run h = (.ok none, h) :=
    firstThere_run_none (List.forall_mem_map.2 hcommon)
  unfold locateNode
  dsimp only
  rw [run_get_bind, hsearch]
  dsimp only
  rw [run_bind_of_ok hnone]
  dsimp only
  rcases hhome with rfl | ⟨rfl, hhome⟩
  · rfl
  · rw [hhome]
    rfl

/-- Where node is neither on the search path nor at a common place and the system says what the version manager holds,
it's the program of an install such that no other one with a program is newer, and it isn't found if and only if no
install has a program. Where the system doesn't say it, that is what the search fails by. -/
theorem locateNode_newest (h : Host) (given : Option Path) (home : Path)
    (hsearch : SearchPath.find? h ((h.env.get? "PATH").getD SearchPath.standard) "node" = none)
    (hcommon : ∀ p ∈ h.candidates, ¬h.Holds (Path.ofString p) ∧ ∀ e, ¬h.Withholds (Path.ofString p) e)
    (hhome : given = some home ∨ given = none ∧ Path.ofHome h.home = .ok home) :
    ((∀ p e, ¬Refuses h home p e) →
      ((locateNode none given).run h = (.error (fault nodeNotFound), h) ↔ ∀ name, ¬Usable h home name) ∧
      ((∃ name, Usable h home name) → ∃ name, Newest h home name ∧
        (locateNode none given).run h = (.ok (programOf (versionsOf home) name), h))) ∧
    ((∃ p e, Refuses h home p e) → ∃ p e, Refuses h home p e ∧
      (locateNode none given).run h = (.error (Action.refused e p), h)) := by
  rw [locateNode_run hsearch hcommon hhome]
  rcases managedNode_cases h home with ⟨p, e, he, hr⟩ | ⟨hknown, ⟨name, hname, hr⟩ | ⟨hnone, hr⟩⟩
  · exact ⟨fun hknown => absurd he (hknown p e), fun _ => ⟨p, e, he, run_bind_of_error hr _⟩⟩
  · rw [run_bind_of_ok hr]
    refine ⟨fun _ => ⟨⟨fun hfails => ?_, fun hnone => absurd hname.1 (hnone name)⟩, fun _ => ⟨name, hname, rfl⟩⟩, ?_⟩
    · nomatch congrArg Prod.fst hfails
    · rintro ⟨p, e, he⟩
      exact absurd he (hknown p e)
  · rw [run_bind_of_ok hr]
    refine ⟨fun _ => ⟨⟨fun _ => hnone, fun _ => rfl⟩, fun ⟨name, hname⟩ => absurd hname (hnone name)⟩, ?_⟩
    rintro ⟨p, e, he⟩
    exact absurd he (hknown p e)

section Managed

/-- A host with four installs: one of an older version, one without a version, one without a program, and the one to be
picked. -/
def managed : Host where
  tree.entries := [(["home"], .dir (.change 0)), (["home", ".nvm"], .dir (.change 0)),
    (["home", ".nvm", "versions"], .dir (.change 0)), (["home", ".nvm", "versions", "node"], .dir (.change 0)),
    (["home", ".nvm", "versions", "node", "v9.11.2"], .dir (.change 0)),
    (["home", ".nvm", "versions", "node", "v9.11.2", "bin"], .dir (.change 0)),
    (["home", ".nvm", "versions", "node", "v9.11.2", "bin", "node"], .file "" true (.change 0)),
    (["home", ".nvm", "versions", "node", "system"], .dir (.change 0)),
    (["home", ".nvm", "versions", "node", "system", "bin"], .dir (.change 0)),
    (["home", ".nvm", "versions", "node", "system", "bin", "node"], .file "" true (.change 0)),
    (["home", ".nvm", "versions", "node", "v20.1.0"], .dir (.change 0)),
    (["home", ".nvm", "versions", "node", "018.0.0"], .dir (.change 0)),
    (["home", ".nvm", "versions", "node", "018.0.0", "bin"], .dir (.change 0)),
    (["home", ".nvm", "versions", "node", "018.0.0", "bin", "node"], .file "" true (.change 0))]
  env := [("PATH", "/bin"), ("HOME", "/home")]

theorem usable_managed : Usable managed (Path.ofString "/home") "v9.11.2" := by
  have hlocate : (managed.tree.locate managed.cwd (versionsOf (Path.ofString "/home"))).toOption =
      some ["home", ".nvm", "versions", "node"] := by decide +kernel
  have hstat : (managed.tree.stat managed.cwd (programOf (versionsOf (Path.ofString "/home")) "v9.11.2")).toOption =
      some (.file "" true (.change 0)) := by decide +kernel
  exact ⟨⟨by decide +kernel, _, .change 0, Except.eq_ok_of_toOption hlocate, rfl, by decide +kernel⟩,
    by decide +kernel, _, Except.eq_ok_of_toOption hstat⟩

/-- The same host, where the names of the installs aren't listed. -/
def hidden : Host :=
  { managed with tree.unlisted := [(["home", ".nvm", "versions", "node"], .denied)] }

theorem refuses_hidden : Refuses hidden (Path.ofString "/home") (versionsOf (Path.ofString "/home")) .denied := by
  have hlocate : (hidden.tree.locate hidden.cwd (versionsOf (Path.ofString "/home"))).toOption =
      some ["home", ".nvm", "versions", "node"] := by decide +kernel
  exact .names (by decide +kernel) (Except.eq_ok_of_toOption hlocate) rfl rfl

/-- Its node is that of an install such that no other one with a program is newer, and where the installs aren't listed
none is found. -/
theorem locateNode_managed : (∃ name, Newest managed (Path.ofString "/home") name ∧
      (locateNode none none).run managed = (.ok (programOf (versionsOf (Path.ofString "/home")) name), managed)) ∧
    ((locateNode none none).run managed).1.toOption =
      some (programOf (versionsOf (Path.ofString "/home")) "018.0.0") ∧
    ∃ p e, (locateNode none none).run hidden = (.error (Action.refused e p), hidden) := by
  have hfound : ((locateNode none none).run managed).1.toOption =
      some (programOf (versionsOf (Path.ofString "/home")) "018.0.0") := by decide +kernel
  have hhome : (Path.ofHome managed.home).toOption = some (Path.ofString "/home") := by decide +kernel
  obtain ⟨hpicks, hfails⟩ := locateNode_newest managed none (Path.ofString "/home") (by decide +kernel)
    (by simp [managed]) (.inr ⟨rfl, Except.eq_ok_of_toOption hhome⟩)
  refine ⟨(hpicks fun p e he => ?_).2 ⟨_, usable_managed⟩, hfound, ?_⟩
  · obtain ⟨_, _, -, hr⟩ := hfails ⟨p, e, he⟩
    rw [hr] at hfound
    cases hfound
  · obtain ⟨-, hrefused⟩ := locateNode_newest hidden none (Path.ofString "/home") (by decide +kernel)
      (by simp [hidden, managed]) (.inr ⟨rfl, Except.eq_ok_of_toOption hhome⟩)
    obtain ⟨p, e, -, hr⟩ := hrefused ⟨_, _, refuses_hidden⟩
    exact ⟨p, e, hr⟩

/-- A host with an install that has a program, and one that is a link. -/
def misled (target : String) : Host where
  tree.entries := [([".nvm"], .dir (.change 0)), ([".nvm", "versions"], .dir (.change 0)),
    ([".nvm", "versions", "node"], .dir (.change 0)), ([".nvm", "versions", "node", "v20.1.0"], .link target),
    ([".nvm", "versions", "node", "v18.0.0"], .dir (.change 0)),
    ([".nvm", "versions", "node", "v18.0.0", "bin"], .dir (.change 0)),
    ([".nvm", "versions", "node", "v18.0.0", "bin", "node"], .file "" true (.change 0))]
  env := [("PATH", "/bin"), ("HOME", "/")]

/-- Whether the link has a program is asked of the name to which it leads, and that may be too long. -/
theorem withholds_misled {target : String} (hslash : '/' ∉ target.toList) (hlong : 255 < target.utf8ByteSize) :
    (misled target).Withholds (programOf (versionsOf (Path.ofString "/")) "v20.1.0") .nameTooLong := by
  have hprogram : programOf (versionsOf (Path.ofString "/")) "v20.1.0" =
      ⟨.one, [".nvm", "versions", "node", "v20.1.0", "bin", "node"]⟩ := by decide +kernel
  have hlink : ∀ enter, (misled target).tree.walkFrom .followed enter []
      [".nvm", "versions", "node", "v20.1.0", "bin", "node"] =
        enter (Tree.targetStart [".nvm", "versions", "node"] target) (Tree.targetParts target ++ ["bin", "node"]) :=
    fun enter => rfl
  have hdir : (misled target).tree.get? [".nvm", "versions", "node"] = some (.dir (.change 0)) := rfl
  have hne : ∀ {name : String}, name.utf8ByteSize ≤ 255 → target ≠ name := fun hshort h =>
    absurd (h ▸ hshort) (Nat.not_le.2 hlong)
  have hfails : ∀ enter cs, (misled target).tree.walkFrom .followed enter [".nvm", "versions", "node"] (target :: cs) =
      .error .nameTooLong := by
    intro enter cs
    unfold Tree.walkFrom
    rw [hdir]
    simp [hlong, hne (show "".utf8ByteSize ≤ 255 by decide), hne (show ".".utf8ByteSize ≤ 255 by decide),
      hne (show "..".utf8ByteSize ≤ 255 by decide)]
  refine ⟨by decide +kernel, ?_, rfl⟩
  rw [hprogram]
  unfold Tree.stat Tree.locate
  rw [if_neg (by decide +kernel)]
  show ((misled target).tree.walkFrom .followed ((misled target).tree.walk .followed 39) [] _ >>= _) = _
  rw [hlink, Tree.targetStart_of_noSlash hslash, Tree.targetParts_of_noSlash hslash (hne (by decide))]
  show ((misled target).tree.walkFrom .followed ((misled target).tree.walk .followed 38) _ (target :: _) >>= _) = _
  rw [hfails]
  rfl

/-- A name that no entry can have. -/
def endless : String := String.ofList (List.replicate 300 'x')

/-- A host with a node that isn't found. -/
theorem locateNode_misled :
    SearchPath.find? (misled endless) (((misled endless).env.get? "PATH").getD SearchPath.standard) "node" = none ∧
    (misled endless).candidates = [] ∧ Usable (misled endless) (Path.ofString "/") "v18.0.0" ∧
    ∃ p e, (locateNode none none).run (misled endless) = (.error (Action.refused e p), misled endless) := by
  have hsearch : SearchPath.find? (misled endless) (((misled endless).env.get? "PATH").getD SearchPath.standard)
      "node" = none := by decide +kernel
  have hhome : (Path.ofHome (misled endless).home).toOption = some (Path.ofString "/") := by decide +kernel
  have hlocate : ((misled endless).tree.locate (misled endless).cwd (versionsOf (Path.ofString "/"))).toOption =
      some [".nvm", "versions", "node"] := by decide +kernel
  have hinstalled : ∀ name ∈ (misled endless).tree.namesIn [".nvm", "versions", "node"],
      Installed (misled endless) (Path.ofString "/") name := fun name hname =>
    ⟨by decide +kernel, _, .change 0, Except.eq_ok_of_toOption hlocate, rfl, hname⟩
  have hstat : ((misled endless).tree.stat (misled endless).cwd
      (programOf (versionsOf (Path.ofString "/")) "v18.0.0")).toOption = some (.file "" true (.change 0)) := by
    decide +kernel
  have hslash : '/' ∉ endless.toList := by
    unfold endless
    rw [String.toList_ofList]
    exact fun h => by simpa using List.eq_of_mem_replicate h
  refine ⟨hsearch, rfl, ⟨hinstalled _ (by decide +kernel), by decide +kernel, _, Except.eq_ok_of_toOption hstat⟩, ?_⟩
  rw [locateNode_run hsearch (List.forall_mem_nil _) (.inr ⟨rfl, Except.eq_ok_of_toOption hhome⟩)]
  rcases managedNode_cases (misled endless) (Path.ofString "/") with ⟨p, e, -, hr⟩ | ⟨hknown, -⟩
  · exact ⟨p, e, run_bind_of_error hr _⟩
  · exact absurd (.program (hinstalled "v20.1.0" (by decide +kernel))
      (withholds_misled hslash (by decide +kernel))) (hknown _ _)

end Managed

end Toolchain

end Bundler
