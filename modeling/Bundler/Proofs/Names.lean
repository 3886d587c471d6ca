import Mathlib.Data.List.DropRight
import Mathlib.Data.List.TakeWhile
import Bundler.Package.Name

/-!
# Names of names

`Package.nameOf` takes the blanks off a specifier and cuts it at a version or at a path. What is left may end in
a blank that stood before the cut, so that the name of a name can be another name (`a b @1` names `a b ` and that
names `a b`). But it goes no further: nothing is left to cut (`Narrow`), and blanks are taken off for good. The
name of the name of anything is its own name (`nameOf_of_nameOf`).

What is cut off begins as a version or a path does (`Cut`, `exists_cut`), and whatever begins so is cut off behind a
name (`Whole.nameChars_append`). Only what begins with a slash has no name, or nothing but blanks does (`Nameable`).
-/

namespace Bundler

namespace Text

theorem trimRight_append_cons (l r : List Char) {c : Char} (hc : isBlank c = false) :
    trimRight (l ++ c :: r) = l ++ c :: trimRight r := by
  unfold trimRight
  have hsplit : (l ++ c :: r).reverse = r.reverse ++ (c :: l.reverse) := by simp
  rw [hsplit, List.dropWhile_append]
  split
  · next h =>
    rw [List.isEmpty_iff] at h
    simp [h, hc]
  · simp

theorem trimLeft_cons {c : Char} (hc : isBlank c = false) (r : List Char) : trimLeft (c :: r) = c :: r := by
  simp [trimLeft, hc]

theorem trim_cons {c : Char} (hc : isBlank c = false) (r : List Char) : trim (c :: r) = c :: trimRight r := by
  unfold trim
  rw [trimLeft_cons hc, ← List.nil_append (c :: r), trimRight_append_cons [] r hc]
  rfl

theorem trim_eq_nil_or (cs : List Char) : trim cs = [] ∨ ∃ c r, isBlank c = false ∧ trim cs = c :: trimRight r := by
  have hhead := List.head?_dropWhile_not isBlank cs
  unfold trim trimLeft
  rcases hcs : cs.dropWhile isBlank with _ | ⟨c, r⟩
  · exact .inl rfl
  · rw [hcs] at hhead
    exact .inr ⟨c, r, by simpa using hhead, trimRight_append_cons [] r (by simpa using hhead)⟩

theorem trim_trim (cs : List Char) : trim (trim cs) = trim cs := by
  have hright : ∀ ds, trimRight (trimRight ds) = trimRight ds := fun ds => List.rdropWhile_idempotent isBlank ds
  rcases trim_eq_nil_or cs with h | ⟨c, r, hc, h⟩
  · rw [h]; rfl
  · rw [h, trim_cons hc, hright]

theorem head?_trim {cs : List Char} {c : Char} (h : cs.head? = some c) (hc : isBlank c = false) :
    (trim cs).head? = some c := by
  obtain ⟨r, rfl⟩ := List.head?_eq_some_iff.1 h
  rw [trim_cons hc]
  rfl

theorem not_blank_of_head?_trim {cs : List Char} {c : Char} (h : (trim cs).head? = some c) : isBlank c = false := by
  rcases trim_eq_nil_or cs with hnil | ⟨d, r, hd, hcons⟩
  · rw [hnil] at h
    nomatch h
  · rw [hcons] at h
    cases h
    exact hd

theorem trim_eq_self_iff {cs : List Char} {c : Char} (h : cs.head? = some c) (hc : isBlank c = false) :
    trim cs = cs ↔ ∀ d ∈ cs.getLast?, isBlank d = false := by
  obtain ⟨r, rfl⟩ := List.head?_eq_some_iff.1 h
  have hright : trim (c :: r) = (c :: r).rdropWhile isBlank :=
    (trim_cons hc r).trans (trimRight_append_cons [] r hc).symm
  rw [hright, List.rdropWhile_eq_self_iff]
  simp [List.getLast?_eq_some_getLast (List.cons_ne_nil c r)]

/-- Blanks around a text are taken off. -/
theorem trim_append_blank {before cs after : List Char} (hbefore : ∀ c ∈ before, isBlank c = true)
    (hafter : ∀ c ∈ after, isBlank c = true) (hcs : ∃ c ∈ cs.head?, isBlank c = false) :
    trim (before ++ cs ++ after) = trim cs := by
  obtain ⟨c, hc, hblank⟩ := hcs
  obtain ⟨r, rfl⟩ := List.head?_eq_some_iff.1 hc
  have hleft : trimLeft (before ++ (c :: r) ++ after) = c :: r ++ after := by
    unfold trimLeft
    rw [List.append_assoc, List.dropWhile_append_of_pos hbefore]
    exact trimLeft_cons hblank _
  have hright : trimRight (c :: r ++ after) = trimRight (c :: r) := by
    unfold trimRight
    rw [List.reverse_append, List.dropWhile_append_of_pos fun d hd => hafter d (List.mem_reverse.1 hd)]
  unfold trim
  rw [hleft, hright, trimLeft_cons hblank]

theorem trim_sublist (cs : List Char) : (trim cs).Sublist cs :=
  (List.rdropWhile_prefix isBlank _).sublist.trans (List.dropWhile_sublist isBlank)

/-- A blank stands at the end. -/
def BlankAtEnd (s : String) : Prop :=
  ∃ c ∈ s.toList.getLast?, isBlank c = true

theorem not_blankAtEnd_iff {s : String} : ¬BlankAtEnd s ↔ ∀ c ∈ s.toList.getLast?, isBlank c = false := by
  simp [BlankAtEnd]

theorem not_blankAtEnd_trim (cs : List Char) : ¬BlankAtEnd (String.ofList (trim cs)) := by
  rw [not_blankAtEnd_iff, String.toList_ofList]
  rcases trim_eq_nil_or cs with hnil | ⟨c, r, hc, hcons⟩
  · rw [hnil]
    nofun
  · exact (trim_eq_self_iff (by rw [hcons]; rfl) hc).1 (trim_trim cs)

end Text

namespace Package

open Text

/-- A text in which there is nothing to cut: no version, and no path behind a name. -/
inductive Narrow : List Char → Prop where
  | plain {cs : List Char} (hat : '@' ∉ cs) (hslash : '/' ∉ cs) : Narrow cs
  | alone {cs : List Char} (hat : '@' ∉ cs) (hslash : '/' ∉ cs) : Narrow ('@' :: cs)
  | within {cs ds : List Char} (hat : '@' ∉ cs) (hslash : '/' ∉ cs) (hat' : '@' ∉ ds) (hslash' : '/' ∉ ds) :
    Narrow ('@' :: (cs ++ '/' :: ds))

theorem not_mem_of_mem_splitOn {sep : Char} : ∀ (cs : List Char) {piece : List Char},
    piece ∈ cs.splitOn sep → sep ∉ piece
  | [], piece, h => by
    rw [List.splitOn_nil, List.mem_singleton] at h
    simp [h]
  | c :: cs, piece, h => by
    rw [List.splitOn_cons_eq_if_modifyHead] at h
    split at h
    · rcases List.mem_cons.1 h with rfl | h
      · simp
      · exact not_mem_of_mem_splitOn cs h
    · next hc =>
      obtain ⟨first, rest, hs⟩ := List.exists_cons_of_ne_nil (List.splitOn_ne_nil sep cs)
      rw [hs, List.modifyHead_cons] at h
      rcases List.mem_cons.1 h with rfl | h
      · have hfirst : sep ∉ first := not_mem_of_mem_splitOn cs (by simp [hs])
        have hne : sep ≠ c := fun heq => hc (by simp [heq])
        simp [hne, hfirst]
      · exact not_mem_of_mem_splitOn cs (by simp [hs, h])

theorem not_mem_of_mem_pieces {sep : Char} {s piece : String} (h : piece ∈ pieces sep s) : sep ∉ piece.toList := by
  obtain ⟨cs, hcs, rfl⟩ := List.mem_map.1 h
  rw [String.toList_ofList]
  exact not_mem_of_mem_splitOn _ hcs

theorem at_not_mem_beforeVersion (cs : List Char) : '@' ∉ beforeVersion cs := fun h => by
  simpa using List.mem_takeWhile_imp h

theorem beforeVersion_eq_self {cs : List Char} (h : '@' ∉ cs) : beforeVersion cs = cs :=
  List.takeWhile_eq_self_iff.2 fun c hc => by
    have hne : c ≠ '@' := fun heq => h (heq ▸ hc)
    simpa using hne

theorem not_mem_beforeVersion {c : Char} {cs : List Char} (h : c ∉ cs) : c ∉ beforeVersion cs := fun hc =>
  h (List.takeWhile_sublist _ |>.subset hc)

/-- A version is cut off from the scope, or from what stands behind it. -/
theorem narrow_cut {cs ds : List Char} (hcs : '/' ∉ cs) (hds : '/' ∉ ds) :
    Narrow ('@' :: beforeVersion (cs ++ '/' :: ds)) := by
  by_cases hat : '@' ∈ cs
  · have hcut : beforeVersion (cs ++ '/' :: ds) = beforeVersion cs := by
      unfold beforeVersion
      rw [List.takeWhile_append, if_neg]
      intro hall
      have hself : cs.takeWhile (· != '@') = cs := List.IsPrefix.eq_of_length (List.takeWhile_prefix _) hall
      simpa using List.takeWhile_eq_self_iff.1 hself '@' hat
    rw [hcut]
    exact .alone (at_not_mem_beforeVersion cs) (not_mem_beforeVersion hcs)
  · have hcut : beforeVersion (cs ++ '/' :: ds) = cs ++ '/' :: beforeVersion ds := by
      have hself := beforeVersion_eq_self hat
      unfold beforeVersion at hself ⊢
      rw [List.takeWhile_append, if_pos (by rw [hself])]
      simp
    rw [hcut]
    exact .within hat hcs (at_not_mem_beforeVersion ds) (not_mem_beforeVersion hds)

theorem narrow_nameChars (cs : List Char) : Narrow (nameChars cs) := by
  unfold nameChars
  split
  · next rest =>
    split
    · next scope base others hs =>
      have hscope : '/' ∉ scope := not_mem_of_mem_splitOn rest (by simp [hs])
      have hbase : '/' ∉ base := not_mem_of_mem_splitOn rest (by simp [hs])
      exact narrow_cut hscope hbase
    · next hs =>
      have hrest : '/' ∉ rest := by
        obtain ⟨first, others, hcons⟩ := List.exists_cons_of_ne_nil (List.splitOn_ne_nil '/' rest)
        cases others with
        | cons second others => exact absurd hcons (hs first second others)
        | nil =>
          have hjoin : ['/'].intercalate (rest.splitOn '/') = rest := List.intercalate_splitOn '/'
          rw [hcons] at hjoin
          have hself : first = rest := by simpa using hjoin
          exact hself ▸ not_mem_of_mem_splitOn rest (by simp [hcons])
      exact .alone (at_not_mem_beforeVersion rest) (not_mem_beforeVersion hrest)
  · refine .plain (at_not_mem_beforeVersion _) (not_mem_beforeVersion fun h => ?_)
    simpa using List.mem_takeWhile_imp h

/-- Nothing is cut where there is nothing to cut. -/
theorem Narrow.nameChars_eq {cs : List Char} (h : Narrow cs) : nameChars cs = cs := by
  cases h with
  | plain hat hslash =>
    have hpath : cs.takeWhile (· != '/') = cs := List.takeWhile_eq_self_iff.2 fun c hc => by
      have hne : c ≠ '/' := fun heq => hslash (heq ▸ hc)
      simpa using hne
    unfold nameChars
    split
    · exact absurd (List.mem_cons_self ..) hat
    · rw [hpath, beforeVersion_eq_self hat]
  | @alone cs hat hslash =>
    simp only [nameChars, List.splitOn_eq_singleton hslash, beforeVersion_eq_self hat]
  | @within cs ds hat hslash hat' hslash' =>
    have hwhole : '@' ∉ cs ++ '/' :: ds := by simp [hat, hat']
    simp only [nameChars, List.splitOn_append_cons_self_of_not_mem hslash, List.splitOn_eq_singleton hslash',
      beforeVersion_eq_self hwhole]

theorem Narrow.trim {cs : List Char} (h : Narrow cs) : Narrow (trim cs) := by
  cases h with
  | plain hat hslash =>
    exact .plain (fun hc => hat ((trim_sublist cs).subset hc)) fun hc => hslash ((trim_sublist cs).subset hc)
  | @alone cs hat hslash =>
    have hsub : (trimRight cs).Sublist cs := (List.rdropWhile_prefix isBlank _).sublist
    rw [trim_cons (by decide)]
    exact .alone (fun hc => hat (hsub.subset hc)) fun hc => hslash (hsub.subset hc)
  | @within cs ds hat hslash hat' hslash' =>
    have hsub : (trimRight ds).Sublist ds := (List.rdropWhile_prefix isBlank _).sublist
    rw [trim_cons (by decide), trimRight_append_cons _ ds (by decide)]
    exact .within hat hslash (fun hc => hat' (hsub.subset hc)) fun hc => hslash' (hsub.subset hc)

/-! ### What is cut off -/

/-- What is cut off behind a name is nothing, or it begins as a version or a path does. -/
def Cut (rest : List Char) : Prop :=
  ∀ c ∈ rest.head?, c = '@' ∨ c = '/'

theorem Cut.nil : Cut [] := nofun

theorem Cut.cons {mark : Char} (hmark : mark = '@' ∨ mark = '/') (cs : List Char) : Cut (mark :: cs) := fun c hc => by
  cases hc
  exact hmark

theorem Cut.append {xs ys : List Char} (hxs : Cut xs) (hys : Cut ys) : Cut (xs ++ ys) := by
  cases xs with
  | nil => exact hys
  | cons c xs => exact hxs

theorem cut_dropWhile {mark : Char} (hmark : mark = '@' ∨ mark = '/') (cs : List Char) :
    Cut (cs.dropWhile (· != mark)) := by
  intro c hc
  have hhead := List.head?_dropWhile_not (· != mark) cs
  rw [hc] at hhead
  obtain rfl : c = mark := by simpa using hhead
  exact hmark

theorem exists_cut_of_splitOn {cs scope base : List Char} {more : List (List Char)}
    (h : cs.splitOn '/' = scope :: base :: more) : ∃ rest, cs = scope ++ '/' :: base ++ rest ∧ Cut rest := by
  have hjoin : ['/'].intercalate (cs.splitOn '/') = cs := List.intercalate_splitOn '/'
  rw [h] at hjoin
  cases more with
  | nil => exact ⟨[], by rw [← hjoin]; simp, .nil⟩
  | cons m more =>
    refine ⟨'/' :: ['/'].intercalate (m :: more), ?_, .cons (.inr rfl) _⟩
    rw [← hjoin]
    simp [List.intercalate_cons_cons]

/-- A specifier is its name and what is cut off. -/
theorem exists_cut (cs : List Char) : ∃ rest, cs = nameChars cs ++ rest ∧ Cut rest := by
  have hversion : ∀ ds, ∃ rest, ds = beforeVersion ds ++ rest ∧ Cut rest := fun ds =>
    ⟨_, List.takeWhile_append_dropWhile.symm, cut_dropWhile (.inl rfl) ds⟩
  unfold nameChars
  split
  · next rest =>
    split
    · next scope base more hsplit =>
      obtain ⟨path, hrest, hpath⟩ := exists_cut_of_splitOn hsplit
      obtain ⟨version, hname, hversion⟩ := hversion (scope ++ '/' :: base)
      refine ⟨version ++ path, ?_, hversion.append hpath⟩
      rw [List.cons_append, ← List.append_assoc, ← hname, ← hrest]
    · obtain ⟨version, hname, hversion⟩ := hversion rest
      exact ⟨version, congrArg _ hname, hversion⟩
  · obtain ⟨version, hname, hversion⟩ := hversion (cs.takeWhile (· != '/'))
    refine ⟨version ++ cs.dropWhile (· != '/'), ?_, hversion.append (cut_dropWhile (.inr rfl) cs)⟩
    rw [← List.append_assoc, ← hname, List.takeWhile_append_dropWhile]

theorem splitOn_head (cs : List Char) : ∃ more, cs.splitOn '/' = cs.takeWhile (· != '/') :: more := by
  have hnot : '/' ∉ cs.takeWhile (· != '/') := fun h => by simpa using List.mem_takeWhile_imp h
  have hhead := List.head?_dropWhile_not (· != '/') cs
  have hcs := List.takeWhile_append_dropWhile (p := (· != '/')) (l := cs)
  cases hrest : cs.dropWhile (· != '/') with
  | nil =>
    rw [hrest, List.append_nil] at hcs
    rw [hcs] at hnot ⊢
    exact ⟨[], List.splitOn_eq_singleton hnot⟩
  | cons c rest =>
    rw [hrest] at hhead hcs
    obtain rfl : c = '/' := by simpa using hhead
    refine ⟨rest.splitOn '/', ?_⟩
    conv_lhs => rw [← hcs]
    exact List.splitOn_append_cons_self_of_not_mem hnot rest

/-- A name with a path behind it would be another name if it were a scope alone. -/
structure Whole (cs : List Char) : Prop where
  narrow : Narrow cs
  nonempty : cs ≠ []
  based : cs.head? = some '@' → '/' ∈ cs

theorem beforeVersion_append {cs : List Char} (h : '@' ∉ cs) (ds : List Char) :
    beforeVersion (cs ++ ds) = cs ++ beforeVersion ds := by
  unfold beforeVersion
  exact List.takeWhile_append_of_pos fun c hc => by simpa using ne_of_mem_of_not_mem hc h

theorem Cut.beforeVersion {rest : List Char} (h : Cut rest) : beforeVersion (rest.takeWhile (· != '/')) = [] := by
  cases rest with
  | nil => rfl
  | cons c rest => rcases h c rfl with rfl | rfl <;> rfl

/-- What begins as a version or a path does is cut off behind a name. -/
theorem Whole.nameChars_append {cs rest : List Char} (h : Whole cs) (hrest : Cut rest) :
    nameChars (cs ++ rest) = cs := by
  have hpath : ∀ {ds : List Char}, '/' ∉ ds → (ds ++ rest).takeWhile (· != '/') = ds ++ rest.takeWhile (· != '/') :=
    fun hds => List.takeWhile_append_of_pos fun c hc => by simpa using ne_of_mem_of_not_mem hc hds
  obtain ⟨hnarrow, hne, hbased⟩ := h
  cases hnarrow with
  | plain hat hslash =>
    unfold nameChars
    split
    · next more heq =>
      obtain ⟨c, cs, rfl⟩ := List.exists_cons_of_ne_nil hne
      exact absurd (List.mem_cons.2 (.inl (List.cons.inj heq).1.symm)) hat
    · rw [hpath hslash, beforeVersion_append hat, hrest.beforeVersion, List.append_nil]
  | alone hat hslash => simp [hslash] at hbased
  | @within scope base hat hslash hat' hslash' =>
    obtain ⟨more, hmore⟩ := splitOn_head (base ++ rest)
    have hsplit : (scope ++ '/' :: base ++ rest).splitOn '/' = scope :: (base ++ rest.takeWhile (· != '/')) :: more := by
      rw [List.append_assoc, List.cons_append, List.splitOn_append_cons_self_of_not_mem hslash, hmore, hpath hslash']
    have hname : '@' ∉ scope ++ '/' :: base := by simp [hat, hat']
    rw [List.cons_append]
    simp only [nameChars, hsplit]
    rw [← List.cons_append, ← List.append_assoc, beforeVersion_append hname, hrest.beforeVersion, List.append_nil]

theorem nameOf_eq_ok_iff {s n : String} :
    nameOf s = .ok n ↔ trim s.toList ≠ [] ∧ n = String.ofList (nameChars (trim s.toList)) := by
  unfold nameOf specifier
  cases trim s.toList with
  | nil => simp [bind, Except.bind]
  | cons c cs => simp [bind, Except.bind, pure, Except.pure, eq_comm]

theorem narrow_of_nameOf {s n : String} (hn : nameOf s = .ok n) : Narrow n.toList := by
  obtain ⟨-, rfl⟩ := nameOf_eq_ok_iff.1 hn
  rw [String.toList_ofList]
  exact narrow_nameChars _

/-- A name of a name is its own name. -/
theorem nameOf_of_nameOf {s a n : String} (ha : nameOf s = .ok a) (hn : nameOf a = .ok n) :
    nameOf n = .ok n := by
  obtain ⟨_, rfl⟩ := nameOf_eq_ok_iff.1 ha
  obtain ⟨hne, rfl⟩ := nameOf_eq_ok_iff.1 hn
  rw [String.toList_ofList] at hne ⊢
  have hcut : nameChars (trim (nameChars (trim s.toList))) = trim (nameChars (trim s.toList)) :=
    (narrow_nameChars _).trim.nameChars_eq
  rw [nameOf_eq_ok_iff, String.toList_ofList, hcut, trim_trim, hcut]
  exact ⟨hne, rfl⟩

/-! ### What has a name -/

/-- A name begins as its specifier does. -/
theorem head?_nameChars_of_ne {cs : List Char} {c : Char} (h : cs.head? = some c) (hslash : c ≠ '/') :
    (nameChars cs).head? = some c := by
  obtain ⟨r, rfl⟩ := List.head?_eq_some_iff.1 h
  unfold nameChars
  split
  · next hcons =>
    obtain ⟨rfl, rfl⟩ := List.cons.inj hcons
    split <;> rfl
  · next hat =>
    have hat : c ≠ '@' := fun heq => hat r (heq ▸ rfl)
    simp [beforeVersion, hslash, hat]

/-- The specifier holds something that doesn't begin with a slash. -/
def Nameable (s : String) : Prop :=
  ∃ c ∈ (trim s.toList).head?, c ≠ '/'

/-- Whatever there is to name has a name, which has one itself: its own but for the blanks at its end. -/
theorem Nameable.exists_nameOf {s : String} (hs : Nameable s) : ∃ n, nameOf s = .ok n ∧ Nameable n ∧
    nameOf n = .ok (trimmed n) ∧ (nameOf n = .ok n ↔ ¬BlankAtEnd n) := by
  obtain ⟨c, hc, hslash⟩ := hs
  have hblank := not_blank_of_head?_trim hc
  have hfirst := head?_nameChars_of_ne hc hslash
  have hhead := head?_trim hfirst hblank
  have hself : nameOf (String.ofList (nameChars (trim s.toList))) =
      .ok (trimmed (String.ofList (nameChars (trim s.toList)))) := by
    rw [nameOf_eq_ok_iff]
    unfold trimmed
    rw [String.toList_ofList, (narrow_nameChars _).trim.nameChars_eq]
    exact ⟨List.ne_nil_of_mem (List.mem_of_mem_head? hhead), rfl⟩
  refine ⟨_, nameOf_eq_ok_iff.2 ⟨List.ne_nil_of_mem (List.mem_of_mem_head? hc), rfl⟩, ⟨c, ?_, hslash⟩, hself, ?_⟩
  · rw [String.toList_ofList]
    exact hhead
  · rw [hself, Except.ok.injEq, not_blankAtEnd_iff]
    unfold trimmed
    rw [String.ofList_inj, String.toList_ofList, trim_eq_self_iff hfirst hblank]

/-- Where a name ends in a blank, that stood before what was cut off. -/
theorem exists_cut_of_blankAtEnd {s n : String} (hn : nameOf s = .ok n) (hblank : BlankAtEnd n) :
    ∃ mark rest, (mark = '@' ∨ mark = '/') ∧ trim s.toList = n.toList ++ mark :: rest := by
  obtain ⟨-, rfl⟩ := nameOf_eq_ok_iff.1 hn
  obtain ⟨rest, hrest, hcut⟩ := exists_cut (trim s.toList)
  rw [String.toList_ofList]
  cases rest with
  | nil =>
    rw [List.append_nil] at hrest
    rw [← hrest] at hblank
    exact absurd hblank (not_blankAtEnd_trim _)
  | cons mark rest => exact ⟨mark, rest, hcut mark rfl, hrest⟩

end Package

end Bundler
