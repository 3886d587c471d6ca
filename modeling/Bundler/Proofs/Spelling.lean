import Bundler.Proofs.Names
import Bundler.Proofs.Step
import Bundler.Tools.Toolchain

/-!
# Paths and their texts

A path that is written and read again is the same one (`Path.ofString_text`), if its parts are ones that a text
can have (`Path.Proper`). All paths of the settings and of the toolchain are of that kind.
-/

namespace Bundler

theorem Except.exists_of_bind {ε α β : Type} {r : Except ε α} {f : α → Except ε β} {y : β}
    (h : r >>= f = .ok y) : ∃ x, r = .ok x ∧ f x = .ok y := by
  cases r with
  | error e => cases h
  | ok x => exact ⟨x, rfl, h⟩

theorem Except.eq_ok_of_toOption {ε α : Type} {r : Except ε α} {x : α} (h : r.toOption = some x) : r = .ok x := by
  cases r with
  | ok y => exact congrArg Except.ok (Option.some.inj h)
  | error e => nomatch h

namespace Path

/-- The parts are what stands between the slashes of a text. -/
structure Proper (p : Path) : Prop where
  isPart : ∀ s ∈ p.parts, Path.isPart s = true
  noSlash : ∀ s ∈ p.parts, '/' ∉ s.toList

/-- The parts that a text has. -/
def partsOf (cs : List Char) : List String :=
  ((cs.splitOn '/').map String.ofList).filter Path.isPart

theorem proper_ofString (s : String) : (ofString s).Proper where
  isPart _ h := (List.mem_filter.1 h).2
  noSlash _ h := Package.not_mem_of_mem_pieces (List.mem_filter.1 h).1

theorem Proper.join {p q : Path} (hp : p.Proper) (hq : q.Proper) : (p.join q).Proper := by
  unfold Path.join
  split
  · exact hq
  · refine ⟨fun s hs => ?_, fun s hs => ?_⟩
    · exact (List.mem_append.1 hs).elim (hp.isPart s) (hq.isPart s)
    · exact (List.mem_append.1 hs).elim (hp.noSlash s) (hq.noSlash s)

theorem Proper.child {p : Path} (hp : p.Proper) (name : String) : (p.child name).Proper :=
  hp.join (proper_ofString name)

/-- A path is written as its root and its parts, unless it has neither. -/
theorem text_eq {p : Path} (h : ¬(p.root = .none ∧ p.parts = [])) : p.text = p.root.text ++ "/".intercalate p.parts := by
  unfold text
  rw [if_neg]
  simpa using h

theorem partsOf_cons_slash (cs : List Char) : partsOf ('/' :: cs) = partsOf cs := by
  have hsplit : ('/' :: cs).splitOn '/' = [] :: cs.splitOn '/' :=
    List.splitOn_append_cons_self_of_not_mem (show '/' ∉ ([] : List Char) by simp) cs
  unfold partsOf
  rw [hsplit]
  rfl

section Text

variable {p : Path} (hp : p.Proper)

include hp

theorem Proper.partsOf_intercalate : partsOf (['/'].intercalate (p.parts.map String.toList)) = p.parts := by
  have hsplit : p.parts ≠ [] → (['/'].intercalate (p.parts.map String.toList)).splitOn '/' =
      p.parts.map String.toList := by
    intro hne
    refine List.splitOn_intercalate '/' (fun cs hcs => ?_) (by simpa using hne)
    obtain ⟨s, hs, rfl⟩ := List.mem_map.1 hcs
    exact hp.noSlash s hs
  unfold partsOf
  by_cases hne : p.parts = []
  · rw [hne]
    rfl
  · rw [hsplit hne, List.map_map]
    have hself : String.ofList ∘ String.toList = id := funext fun s => String.ofList_toList
    rw [hself, List.map_id]
    exact List.filter_eq_self.2 hp.isPart

/-- What follows the root of a text doesn't begin with a slash. -/
theorem Proper.takeWhile_intercalate :
    (['/'].intercalate (p.parts.map String.toList)).takeWhile (· == '/') = [] := by
  cases hparts : p.parts with
  | nil => rfl
  | cons s rest =>
    have hs : s ∈ p.parts := by simp [hparts]
    have hne : s.toList ≠ [] := by
      intro hempty
      have hpart := hp.isPart s hs
      rw [String.toList_eq_nil_iff.1 hempty] at hpart
      exact absurd hpart (by decide)
    obtain ⟨c, cs, hcs⟩ := List.exists_cons_of_ne_nil hne
    have hc : c ≠ '/' := fun heq => hp.noSlash s hs (by simp [hcs, heq])
    cases rest <;> simp [hcs, hc, List.intercalate]

/-- A path is read from its text again. -/
theorem Proper.ofString_text : ofString p.text = p := by
  have hbody := hp.takeWhile_intercalate
  have hparts := hp.partsOf_intercalate
  obtain ⟨root, parts⟩ := p
  by_cases hdot : root = .none ∧ parts = []
  · obtain ⟨rfl, rfl⟩ := hdot
    rfl
  have hlist : (text ⟨root, parts⟩).toList = root.text.toList ++ ['/'].intercalate (parts.map String.toList) := by
    rw [text_eq hdot, String.toList_append, String.toList_intercalate]
    rfl
  have hroot : rootOf (text ⟨root, parts⟩) = root := by
    unfold rootOf
    rw [hlist]
    cases root <;> simp [Root.text, hbody]
  have hsaid : partsOf (text ⟨root, parts⟩).toList = parts := by
    rw [hlist]
    cases root with
    | none => exact hparts
    | one => exact (partsOf_cons_slash _).trans hparts
    | two => exact (partsOf_cons_slash _).trans ((partsOf_cons_slash _).trans hparts)
  exact congrArg₂ Path.mk hroot hsaid

end Text

theorem proper_of_expandHome {p q : Path} {home : String} (hp : p.Proper) (h : p.expandHome home = .ok q) :
    q.Proper := by
  unfold expandHome at h
  split at h
  · next first rest _ hparts =>
    have hrest : (⟨.none, rest⟩ : Path).Proper :=
      ⟨fun s hs => hp.isPart s (by simp [hparts, hs]), fun s hs => hp.noSlash s (by simp [hparts, hs])⟩
    split at h
    · cases hdir : homeOf first home with
      | error f => rw [hdir] at h; cases h
      | ok dir =>
        rw [hdir] at h
        dsimp only [bind, Except.bind] at h
        split at h
        · cases h
        · cases h
          exact (proper_ofString dir).join hrest
    · cases h
      exact hp
  · cases h
    exact hp

theorem proper_ofHome {home : String} {p : Path} (h : ofHome home = .ok p) : p.Proper :=
  proper_of_expandHome (proper_ofString "~") h

end Path

namespace Settings

theorem proper_of_homedPathOf {home : String} {v : Json} {p : Path} (h : homedPathOf home v = .ok p) :
    p.Proper := by
  unfold homedPathOf at h
  cases v with
  | str s => exact Path.proper_of_expandHome (Path.proper_ofString s) h
  | _ => cases h

/-- Cache and node of settings are paths that a text has. -/
theorem proper_of_ofFields {home : String} {fields : List (String × Json)} {s : Settings}
    (h : ofFields home fields = .ok s) : s.cacheDir.Proper ∧ ∀ p, s.node = some p → p.Proper := by
  unfold ofFields at h
  obtain ⟨_, -, h⟩ := Except.exists_of_bind h
  obtain ⟨cacheDir, hcacheDir, h⟩ := Except.exists_of_bind h
  obtain ⟨node, hnode, h⟩ := Except.exists_of_bind h
  obtain ⟨_, -, h⟩ := Except.exists_of_bind h
  obtain ⟨_, -, h⟩ := Except.exists_of_bind h
  obtain ⟨_, -, h⟩ := Except.exists_of_bind h
  cases h
  constructor
  · unfold cacheDirOf at hcacheDir
    split at hcacheDir
    · exact proper_of_homedPathOf hcacheDir
    · cases hcacheDir
  · rintro p ⟨⟩
    unfold nodeOf at hnode
    generalize (fields.lookup "node").getD .null = v at hnode
    split at hnode
    · cases hnode
    · cases hv : homedPathOf home v with
      | error f => rw [hv] at hnode; cases hnode
      | ok q =>
        rw [hv] at hnode
        cases hnode
        exact proper_of_homedPathOf hv

end Settings

/-- All that the step can give back is in `P`. -/
def Action.Yields {α : Type} (a : Action α) (P : α → Prop) : Prop :=
  ∀ h, wp a (fun x _ => P x) (fun _ _ => True) h

namespace Action.Yields

variable {α β : Type} {P : α → Prop} {R : β → Prop}

theorem pure {x : α} (hx : P x) : (pure x : Action α).Yields P := fun _ => hx

theorem throw (f : Failure) : (throw f : Action α).Yields P := fun _ => trivial

theorem any (a : Action α) : a.Yields fun _ => True := fun _ =>
  wp_of_forall a (fun _ _ => trivial) fun _ _ => trivial

theorem bind {a : Action α} {f : α → Action β} (ha : a.Yields P) (hf : ∀ x, P x → (f x).Yields R) :
    (a >>= f).Yields R := by
  intro h
  rw [wp_bind]
  exact wp_mono _ (ha h) (fun x t hx => hf x hx t) fun _ _ _ => trivial

end Action.Yields

namespace Toolchain

theorem proper_of_find? {h : Host} {search name : String} {p : Path} (hp : SearchPath.find? h search name = some p) :
    p.Proper := by
  unfold SearchPath.find? at hp
  split at hp
  · cases hp
  · obtain ⟨dir, -, rfl⟩ := List.mem_map.1 (List.mem_of_find?_eq_some hp)
    exact Path.proper_ofString _

theorem yields_firstThere : ∀ ps : List Path, (firstThere ps).Yields fun r => ∀ p, r = some p → p ∈ ps
  | [] => .pure nofun
  | q :: ps => by
    unfold firstThere
    refine (Action.Yields.any _).bind fun there _ => ?_
    split
    · exact .pure fun p hp => by cases hp; exact List.mem_cons_self ..
    · exact fun h => wp_mono _ (yields_firstThere ps h) (fun r _ hr p hp => List.mem_cons_of_mem q (hr p hp))
        fun _ _ _ => trivial

theorem yields_managedNode {home : Path} (hhome : home.Proper) :
    (managedNode home).Yields fun r => ∀ p, r = some p → p.Proper := by
  have hprogram : ∀ name, (programOf (((home.child ".nvm").child "versions").child "node") name).Proper := fun name =>
    ((((hhome.child _).child _).child _).child name).child _ |>.child _
  unfold managedNode
  refine (Action.Yields.any _).bind fun there _ => ?_
  split
  · exact .pure nofun
  · refine (Action.Yields.any _).bind fun names _ => (Action.Yields.any _).bind fun usable _ => .pure ?_
    intro p hp
    obtain ⟨name, -, rfl⟩ := Option.map_eq_some_iff.1 hp
    exact hprogram name

/-- Node is a path that a text has, if what is given for it is. -/
theorem yields_locateNode {explicit : Option Path} (hexplicit : ∀ p, explicit = some p → p.Proper) :
    (locateNode explicit none).Yields Path.Proper := by
  intro h
  unfold locateNode
  split
  · refine (Action.Yields.any _).bind (fun there _ => ?_) h
    split
    · exact .pure (hexplicit _ rfl)
    · exact .throw _
  · rw [wp_bind, wp_get]
    split
    · next p hp => exact proper_of_find? hp
    · refine (yields_firstThere _).bind (fun found hfound => ?_) h
      split
      · next p =>
        obtain ⟨text, -, rfl⟩ := List.mem_map.1 (hfound p rfl)
        exact .pure (Path.proper_ofString text)
      · cases hhome : Path.ofHome h.home with
        | error f => exact .throw f
        | ok home =>
          refine (yields_managedNode (Path.proper_ofHome hhome)).bind (fun found hfound => ?_)
          split
          · exact .pure (hfound _ rfl)
          · exact .throw _

theorem yields_locateNpm (node : Path) (env : Environment) : (locateNpm node env).Yields Path.Proper := by
  intro h
  unfold locateNpm
  rw [wp_bind, wp_get]
  dsimp only
  split
  · next hp => exact proper_of_find? hp
  · trivial

/-- The programs of a toolchain are paths that a text has. -/
theorem yields_discover {explicit : Option Path} (hexplicit : ∀ p, explicit = some p → p.Proper) :
    (discover explicit).Yields fun t => t.node.Proper ∧ t.npm.Proper := by
  refine (yields_locateNode hexplicit).bind fun node hnode => (Action.Yields.any _).bind fun host _ => ?_
  refine (yields_locateNpm _ _).bind fun npm hnpm => ?_
  exact (Action.Yields.any _).bind fun _ _ => .pure ⟨hnode, hnpm⟩

end Toolchain

end Bundler
