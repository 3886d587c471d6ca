import Bundler.Proofs.Writing

/-!
# What is read

Whatever text is read, the value fits into the bounds, and no object of it has a key twice (`Json.given_of_parse`), since
the later field takes the place of the earlier. Up to the first thing that is too much, the bounds make no difference
(`Json.parse?_of_settled`), and so they are all that can be in the way of a text that stands for a value
(`Json.exists_excess_of_not_fits`).
-/

namespace Bundler

namespace Json

variable {b : Bounds}

/-! ### Fields that are put into an object -/

theorem mem_putField {k : String} {v : Json} {f : String × Json} :
    ∀ {fs : List (String × Json)}, f ∈ putField k v fs → f = (k, v) ∨ f ∈ fs
  | [], h => .inl (List.mem_singleton.1 h)
  | g :: fs, h => by
    unfold putField at h
    split at h
    · exact (List.mem_cons.1 h).imp_right (List.mem_cons_of_mem g)
    · rcases List.mem_cons.1 h with rfl | h
      · exact .inr (List.mem_cons_self ..)
      · exact (mem_putField h).imp_right (List.mem_cons_of_mem g)

theorem nodup_putField (k : String) (v : Json) :
    ∀ {fs : List (String × Json)}, (fs.map Prod.fst).Nodup → ((putField k v fs).map Prod.fst).Nodup
  | [], _ => by simp [putField]
  | (k', v') :: fs, h => by
    rw [List.map_cons, List.nodup_cons] at h
    unfold putField
    split
    · next heq =>
      rw [List.map_cons, List.nodup_cons]
      exact heq ▸ h
    · next hne =>
      rw [List.map_cons, List.nodup_cons]
      refine ⟨fun hmem => ?_, nodup_putField k v h.2⟩
      obtain ⟨f, hf, rfl⟩ := List.mem_map.1 hmem
      rcases mem_putField hf with rfl | hf
      · exact hne rfl
      · exact h.1 (List.mem_map.2 ⟨f, hf, rfl⟩)

/-- The fields of an object are some of the pairs, each key once. -/
theorem ofPairs_spec (ps : List (String × Json)) :
    ((ofPairs ps).map Prod.fst).Nodup ∧ ∀ f ∈ ofPairs ps, f ∈ ps := by
  have hfold : ∀ fs : List (String × Json), (fs.map Prod.fst).Nodup →
      ((ps.foldl (fun fs p => putField p.1 p.2 fs) fs).map Prod.fst).Nodup ∧
        ∀ f ∈ ps.foldl (fun fs p => putField p.1 p.2 fs) fs, f ∈ ps ∨ f ∈ fs := by
    induction ps with
    | nil => exact fun fs hfs => ⟨hfs, fun f hf => .inr hf⟩
    | cons p ps ih =>
      intro fs hfs
      obtain ⟨hnodup, hmem⟩ := ih (putField p.1 p.2 fs) (nodup_putField _ _ hfs)
      refine ⟨hnodup, fun f hf => ?_⟩
      rcases hmem f hf with hf | hf
      · exact .inl (List.mem_cons_of_mem _ hf)
      · rcases mem_putField hf with rfl | hf
        · exact .inl (List.mem_cons_self ..)
        · exact .inr hf
  obtain ⟨hnodup, hmem⟩ := hfold [] List.nodup_nil
  exact ⟨hnodup, fun f hf => (hmem f hf).resolve_right List.not_mem_nil⟩

/-! ### What a reader gives -/

/-- A value that fits, in which no object has a key twice. -/
structure Given (b : Bounds) (v : Json) : Prop where
  keyed : v.Keyed
  fits : v.Fits b

namespace Given

variable {digits : Option Nat} {levels : Nat}

theorem arr {xs : List Json} (h : ∀ x ∈ xs, x.Given ⟨digits, levels⟩) : (Json.arr xs).Given ⟨digits, levels + 1⟩ :=
  ⟨.arr fun x hx => (h x hx).keyed, .arr fun x hx => (h x hx).fits⟩

theorem ofPairs {ps : List (String × Json)} (h : ∀ p ∈ ps, p.2.Given ⟨digits, levels⟩) :
    (Json.obj (Json.ofPairs ps)).Given ⟨digits, levels + 1⟩ := by
  obtain ⟨hnodup, hmem⟩ := ofPairs_spec ps
  exact ⟨.obj hnodup fun f hf => (h f (hmem f hf)).keyed, .obj fun f hf => (h f (hmem f hf)).fits⟩

end Given

namespace Reader

theorem exists_of_map_ok {ε α β : Type} {f : α → β} {r : Except ε α} {y : β} (h : r.map f = .ok y) :
    ∃ x, r = .ok x ∧ f x = y := by
  cases r with
  | error e => cases h
  | ok x => exact ⟨x, rfl, Except.ok.inj h⟩

theorem ok_of_orMalformed {α : Type} {o : Option α} {x : α} (h : orMalformed o = .ok x) : o = some x := by
  cases o with
  | none => cases h
  | some y => cases h; rfl

/-- A scalar is a constant or a number. -/
theorem scalar?_cases {cs rest : List Char} {v : Json} (h : scalar? cs = some (v, rest)) :
    v = .null ∨ (∃ x, v = .bool x) ∨ ∃ n, v = .num n := by
  have hwords : ∀ w ∈ words, w.2 = .null ∨ (∃ x, w.2 = .bool x) ∨ ∃ n, w.2 = .num n := by
    simp [words]
  unfold scalar? at h
  split at h
  · next hword =>
    obtain ⟨w, hw, heq⟩ := List.exists_of_findSome?_eq_some hword
    cases h
    split at heq
    · cases heq
      exact hwords w hw
    · cases heq
  · cases hnumber : number? cs with
    | none => rw [hnumber] at h; cases h
    | some r =>
      rw [hnumber] at h
      cases h
      exact .inr (.inr ⟨_, rfl⟩)

theorem given_scalar {digits : Option Nat} {cs rest : List Char} {v : Json} (levels : Nat)
    (h : orMalformed (scalar? cs) >>= checked digits = .ok (v, rest)) : v.Given ⟨digits, levels⟩ := by
  cases hscalar : scalar? cs with
  | none => rw [hscalar] at h; cases h
  | some r =>
    rw [hscalar] at h
    obtain ⟨v', rest'⟩ := r
    change checked digits (v', rest') = .ok (v, rest) at h
    rcases scalar?_cases hscalar with rfl | ⟨x, rfl⟩ | ⟨n, rfl⟩
    · cases h
      exact ⟨.null, fits_null _⟩
    · cases h
      exact ⟨.bool x, fits_bool _ x⟩
    · unfold checked at h
      dsimp only at h
      split at h
      · cases h
      · next hshort =>
        cases h
        exact ⟨.num trivial, .num (brokenBy?_eq_none_iff.1 hshort), Nat.zero_le _⟩

variable {digits : Option Nat}

mutual

theorem given_value : ∀ {n levels : Nat} {cs rest : List Char} {v : Json},
    value digits n levels cs = .ok (v, rest) → v.Given ⟨digits, levels⟩
  | 0, _, _, _, _, h => nomatch h
  | n + 1, levels, cs, rest, v, h => by
    unfold value at h
    split at h
    · obtain ⟨r, -, hr⟩ := Option.map_eq_some_iff.1 (ok_of_orMalformed h)
      cases hr
      exact ⟨.str _, fits_str _ _⟩
    · split at h
      · cases h
      · split at h
        · cases h
          exact .arr (List.forall_mem_nil _)
        · obtain ⟨r, hitems, hr⟩ := exists_of_map_ok h
          cases hr
          exact .arr (given_items hitems)
    · split at h
      · cases h
      · split at h
        · cases h
          exact .ofPairs (List.forall_mem_nil _)
        · obtain ⟨r, hmembers, hr⟩ := exists_of_map_ok h
          cases hr
          exact .ofPairs (given_members hmembers)
    · exact given_scalar levels h

theorem given_items : ∀ {n levels : Nat} {cs rest : List Char} {xs : List Json},
    items digits n levels cs = .ok (xs, rest) → ∀ x ∈ xs, x.Given ⟨digits, levels⟩
  | 0, _, _, _, _, h => nomatch h
  | n + 1, levels, cs, rest, xs, h => by
    unfold items at h
    split at h
    · cases h
    · next hvalue =>
      have hv := given_value hvalue
      split at h
      · cases h
        exact List.forall_mem_singleton.2 hv
      · obtain ⟨r, hitems, hr⟩ := exists_of_map_ok h
        cases hr
        exact List.forall_mem_cons.2 ⟨hv, given_items hitems⟩
      · cases h

theorem given_members : ∀ {n levels : Nat} {cs rest : List Char} {fs : List (String × Json)},
    members digits n levels cs = .ok (fs, rest) → ∀ f ∈ fs, f.2.Given ⟨digits, levels⟩
  | 0, _, _, _, _, h => nomatch h
  | n + 1, levels, cs, rest, fs, h => by
    unfold members at h
    split at h
    · split at h
      · cases h
      · split at h
        · split at h
          · cases h
          · next hvalue =>
            have hv := given_value hvalue
            split at h
            · cases h
              exact List.forall_mem_singleton.2 hv
            · obtain ⟨r, hmembers, hr⟩ := exists_of_map_ok h
              cases hr
              exact List.forall_mem_cons.2 ⟨hv, given_members hmembers⟩
            · cases h
        · cases h
    · cases h

end

end Reader

theorem given_of_parse {text : String} {v : Json} (h : parse b text = .ok v) : v.Given b := by
  unfold parse at h
  dsimp only at h
  split at h
  · next hvalue =>
    split at h
    · cases h
      exact Reader.given_value hvalue
    · cases h
  · cases h

/-! ### What the bounds don't change -/

namespace Reader

/-- Nothing was too much. -/
def Settled {α : Type} (r : Except Fault α) : Prop :=
  ∀ e, r ≠ .error (.excess e)

theorem Settled.of_map {α β : Type} {f : α → β} {r : Except Fault α} (h : Settled (r.map f)) : Settled r := by
  rintro e rfl
  exact h e rfl

theorem settled_map {α β : Type} {f : α → β} {r : Except Fault α} (h : Settled r) : Settled (r.map f) := by
  cases r with
  | error _ => exact fun e heq => h e (by cases heq; rfl)
  | ok _ => exact nofun

theorem settled_orMalformed {α : Type} (o : Option α) : Settled (orMalformed o) := by
  cases o <;> exact nofun

theorem checked_none (r : Json × List Char) : checked none r = .ok r := by
  unfold checked
  split <;> rfl

theorem checked_of_settled {digits : Option Nat} {r : Json × List Char} (h : Settled (checked digits r)) :
    checked digits r = .ok r := by
  unfold checked at h ⊢
  split at h
  · split at h
    · exact absurd rfl (h _)
    · rfl
  · rfl

theorem scalar_of_settled {digits : Option Nat} {cs : List Char}
    (h : Settled (orMalformed (scalar? cs) >>= checked digits)) :
    orMalformed (scalar? cs) >>= checked none = orMalformed (scalar? cs) >>= checked digits := by
  cases hscalar : scalar? cs with
  | none => rfl
  | some r =>
    rw [hscalar] at h
    show checked none r = checked digits r
    rw [checked_none, checked_of_settled h]

variable {digits : Option Nat}

mutual

/-- What was read without anything being too much is read so within wider bounds. -/
theorem value_of_settled : ∀ {n levels levels' : Nat} {cs : List Char}, levels ≤ levels' →
    Settled (value digits n levels cs) → value none n levels' cs = value digits n levels cs
  | 0, _, _, _, _, _ => rfl
  | n + 1, levels, levels', cs, hle, h => by
    unfold value at h ⊢
    split at h
    · rfl
    · cases levels with
      | zero => exact absurd rfl (h _)
      | succ levels =>
        obtain ⟨levels', rfl⟩ : ∃ m, levels' = m + 1 := ⟨levels' - 1, by omega⟩
        dsimp only at h ⊢
        split at h
        · rfl
        · rw [items_of_settled (by omega) (.of_map h)]
    · cases levels with
      | zero => exact absurd rfl (h _)
      | succ levels =>
        obtain ⟨levels', rfl⟩ : ∃ m, levels' = m + 1 := ⟨levels' - 1, by omega⟩
        dsimp only at h ⊢
        split at h
        · rfl
        · rw [members_of_settled (by omega) (.of_map h)]
    · exact scalar_of_settled h

theorem items_of_settled : ∀ {n levels levels' : Nat} {cs : List Char}, levels ≤ levels' →
    Settled (items digits n levels cs) → items none n levels' cs = items digits n levels cs
  | 0, _, _, _, _, _ => rfl
  | n + 1, levels, levels', cs, hle, h => by
    have hvalue : Settled (value digits n levels cs) := by
      rintro e he
      unfold items at h
      rw [he] at h
      exact h e rfl
    unfold items at h ⊢
    rw [value_of_settled hle hvalue]
    split at h
    · rfl
    · split at h
      · rfl
      · rw [items_of_settled hle (.of_map h)]
      · rfl

theorem members_of_settled : ∀ {n levels levels' : Nat} {cs : List Char}, levels ≤ levels' →
    Settled (members digits n levels cs) → members none n levels' cs = members digits n levels cs
  | 0, _, _, _, _, _ => rfl
  | n + 1, levels, levels', cs, hle, h => by
    unfold members at h ⊢
    split at h
    · split at h
      · rfl
      · next k rest _ =>
        split at h
        · next after _ =>
          have hvalue : Settled (value digits n levels (skip after)) := by
            rintro e he
            rw [he] at h
            exact h e rfl
          rw [value_of_settled hle hvalue]
          split at h
          · rfl
          · split at h
            · rfl
            · rw [members_of_settled hle (.of_map h)]
            · rfl
        · rfl
    · rfl

end

mutual

/-- Where there is a level for every step, nothing is too much. -/
theorem settled_value : ∀ {n levels : Nat} {cs : List Char}, n ≤ levels → Settled (value none n levels cs)
  | 0, _, _, _ => nofun
  | n + 1, levels, cs, hle => by
    obtain ⟨levels, rfl⟩ : ∃ m, levels = m + 1 := ⟨levels - 1, by omega⟩
    unfold value
    split
    · exact settled_orMalformed _
    · dsimp only
      split
      · exact nofun
      · exact settled_map (settled_items (by omega))
    · dsimp only
      split
      · exact nofun
      · exact settled_map (settled_members (by omega))
    · cases scalar? cs with
      | none => exact nofun
      | some r =>
        show Settled (checked none r)
        rw [checked_none]
        exact nofun

theorem settled_items : ∀ {n levels : Nat} {cs : List Char}, n ≤ levels → Settled (items none n levels cs)
  | 0, _, _, _ => nofun
  | n + 1, levels, cs, hle => by
    have hvalue : Settled (value none n levels cs) := settled_value (by omega)
    unfold items
    split
    · next f hf =>
      rw [hf] at hvalue
      exact fun e he => hvalue e (by cases he; rfl)
    · split
      · exact nofun
      · exact settled_map (settled_items (by omega))
      · exact nofun

theorem settled_members : ∀ {n levels : Nat} {cs : List Char}, n ≤ levels → Settled (members none n levels cs)
  | 0, _, _, _ => nofun
  | n + 1, levels, cs, hle => by
    unfold members
    split
    · split
      · exact nofun
      · split
        · next after _ =>
          have hvalue : Settled (value none n levels (skip after)) := settled_value (by omega)
          split
          · next f hf =>
            rw [hf] at hvalue
            exact fun e he => hvalue e (by cases he; rfl)
          · split
            · exact nofun
            · exact settled_map (settled_members (by omega))
            · exact nofun
        · exact nofun
    · exact nofun

end

end Reader

/-- Unless something is too much, a text is read within bounds as it is without. -/
theorem parse?_of_settled {text : String} (h : Reader.Settled (parse b text)) :
    parse? text = (parse b text).toOption := by
  have hwide : ∀ n cs, Reader.Settled (Reader.value b.digits n b.levels cs) →
      Reader.value none n n cs = Reader.value b.digits n b.levels cs := by
    intro n cs hvalue
    have hbounded := Reader.value_of_settled (Nat.le_max_left b.levels n) hvalue
    have hsettled : Reader.Settled (Reader.value none n n cs) := Reader.settled_value (Nat.le_refl n)
    have hfree := Reader.value_of_settled (Nat.le_max_right b.levels n) hsettled
    exact hfree.symm.trans hbounded
  unfold parse? parse Bounds.ofText at *
  dsimp only at h ⊢
  rw [hwide]
  rintro e he
  rw [he] at h
  exact h e rfl

theorem parse?_of_parse {text : String} {v : Json} (h : parse b text = .ok v) : parse? text = some v := by
  rw [parse?_of_settled (b := b) (by rw [h]; exact nofun), h]
  rfl

theorem parse?_of_malformed {text : String} (h : parse b text = .error .malformed) : parse? text = none := by
  rw [parse?_of_settled (b := b) (by rw [h]; exact nofun), h]
  rfl

/-- What was written is read again, however large it is. -/
theorem parse?_write {v : Json} (hv : v.Exact) : parse? v.write = some v :=
  parse?_of_parse (parse_write hv v.fits_depth)

/-- What doesn't fit isn't read within the bounds, however it's laid out, and nothing else is in the way. -/
theorem exists_excess_of_not_fits {text : String} {v : Json} (h : parse? text = some v) (hfits : ¬ v.Fits b) :
    ∃ e, parse b text = .error (.excess e) := by
  rcases hr : parse b text with (_ | e) | v'
  · rw [parse?_of_malformed hr] at h
    cases h
  · exact ⟨e, rfl⟩
  · rw [parse?_of_parse hr] at h
    cases h
    exact absurd (given_of_parse hr).fits hfits

end Json

end Bundler
