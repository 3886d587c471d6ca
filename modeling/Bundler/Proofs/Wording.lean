import Mathlib.Data.List.TakeWhile
import Mathlib.Tactic.Ring
import Bundler.Json.Display

/-!
# Values always have a wording

Where a value stands for a message it has a text that isn't empty (`Json.display_ne_empty`). That needs a proof
for a double, whose text are the digits of a decimal without the zeros at their end: the shortest decimal of a
double that isn't zero has a digit that isn't zero (`Binary.digits_shortest_pos`).
-/

namespace Bundler

namespace Binary

variable (b : Binary)

theorem pow_tensIn_le : ∀ (fuel : Nat) {n : Nat}, 0 < n → 10 ^ tensIn fuel n ≤ n
  | 0, _, hn => hn
  | fuel + 1, n, hn => by
    unfold tensIn
    split
    · exact hn
    · next hten =>
      have ih := pow_tensIn_le fuel (show 0 < n / 10 by omega)
      calc 10 ^ (tensIn fuel (n / 10) + 1) = 10 ^ tensIn fuel (n / 10) * 10 := Nat.pow_succ ..
        _ ≤ n / 10 * 10 := Nat.mul_le_mul_right 10 ih
        _ ≤ n := Nat.div_mul_le_self n 10

/-- Multiplying by ten reaches what is to be reached, unless the fuel runs out. -/
theorem le_pow_tensTo : ∀ (fuel num den : Nat), den ≤ 10 ^ tensTo fuel num den * num ∨ tensTo fuel num den = fuel
  | 0, _, _ => .inr rfl
  | fuel + 1, num, den => by
    unfold tensTo
    split
    · next h => exact .inl (by simpa using h)
    · rcases le_pow_tensTo fuel (10 * num) den with h | h
      · refine .inl (h.trans (Nat.le_of_eq ?_))
        ring
      · exact .inr (by rw [h])

theorem two_pow_le (n : Nat) : 2 ^ (3 * n) ≤ 10 ^ n := by
  rw [Nat.pow_mul]
  exact Nat.pow_le_pow_left (by decide) n

theorem num_scale_pos (t : Int) : 0 < (b.scale t).num :=
  Nat.mul_pos (Nat.pow_pos (by decide)) (Nat.pow_pos (by decide))

theorem den_scale_pos (t : Int) : 0 < (b.scale t).den :=
  Nat.mul_pos (Nat.pow_pos (by decide)) (Nat.pow_pos (by decide))

variable {b}

/-- A grid fine enough for seventeen digits has points up to the double. -/
theorem below_pos (hm : b.mantissa ≠ 0) (he : -1074 ≤ b.exponent) :
    0 < b.below (b.scale (b.leading - 17 + 1)) := by
  refine Nat.div_pos ?_ (b.den_scale_pos _)
  have hden : (b.scale 0).den = 2 ^ (2 - b.exponent).toNat := by simp [scale]
  have hnum : (b.scale 0).num = 2 ^ (b.exponent - 2).toNat := by simp [scale]
  have hpos : 0 < 4 * b.mantissa * (b.scale 0).num := Nat.mul_pos (by omega) (b.num_scale_pos 0)
  unfold leading
  dsimp only
  split
  · next hle =>
    have hquot : 0 < 4 * b.mantissa * (b.scale 0).num / (b.scale 0).den := Nat.div_pos hle (b.den_scale_pos 0)
    have hpow := pow_tensIn_le 400 hquot
    generalize tensIn 400 _ = k at hpow
    have hk : ((k : Int) - 17 + 1).toNat ≤ k := by omega
    calc (b.scale (k - 17 + 1)).den = (b.scale 0).den * 10 ^ ((k : Int) - 17 + 1).toNat := by simp [scale]
      _ ≤ (b.scale 0).den * 10 ^ k := Nat.mul_le_mul_left _ (Nat.pow_le_pow_right (by decide) hk)
      _ ≤ (b.scale 0).den * (4 * b.mantissa * (b.scale 0).num / (b.scale 0).den) := Nat.mul_le_mul_left _ hpow
      _ ≤ 4 * b.mantissa * (b.scale 0).num := Nat.mul_div_le ..
      _ ≤ 4 * b.mantissa * (b.scale 0).num * 10 ^ (-((k : Int) - 17 + 1)).toNat :=
        Nat.le_mul_of_pos_right _ (Nat.pow_pos (by decide))
      _ = 4 * b.mantissa * (b.scale (k - 17 + 1)).num := by
        rw [hnum, Nat.mul_assoc]
        rfl
  · have hreach := le_pow_tensTo 400 (4 * b.mantissa * (b.scale 0).num) (b.scale 0).den
    generalize tensTo 400 _ _ = j at hreach
    have hup : (-(j : Int) - 17 + 1).toNat = 0 := by omega
    have hdown : (-(-(j : Int) - 17 + 1)).toNat = j + 16 := by omega
    have hsame : (b.scale (-(j : Int) - 17 + 1)).den = (b.scale 0).den := by simp [scale, hup]
    have hmore : 4 * b.mantissa * (b.scale (-(j : Int) - 17 + 1)).num =
        4 * b.mantissa * (b.scale 0).num * 10 ^ (j + 16) := by
      show 4 * b.mantissa * (2 ^ _ * 10 ^ (-(-(j : Int) - 17 + 1)).toNat) = _
      rw [hdown, hnum]
      simp only [Nat.mul_assoc]
    rw [hsame, hmore]
    have hbound : (b.scale 0).den ≤ 10 ^ j * (4 * b.mantissa * (b.scale 0).num) := by
      refine hreach.elim id fun hj => ?_
      -- the exponent of a double keeps its denominator below what the fuel reaches
      have hexponent : (2 - b.exponent).toNat ≤ 3 * j := by omega
      calc (b.scale 0).den = 2 ^ (2 - b.exponent).toNat := hden
        _ ≤ 2 ^ (3 * j) := Nat.pow_le_pow_right (by decide) hexponent
        _ ≤ 10 ^ j := two_pow_le j
        _ ≤ 10 ^ j * (4 * b.mantissa * (b.scale 0).num) := Nat.le_mul_of_pos_right _ hpos
    calc (b.scale 0).den ≤ 10 ^ j * (4 * b.mantissa * (b.scale 0).num) := hbound
      _ = 4 * b.mantissa * (b.scale 0).num * 10 ^ j := Nat.mul_comm ..
      _ ≤ 4 * b.mantissa * (b.scale 0).num * 10 ^ (j + 16) :=
        Nat.mul_le_mul_left _ (Nat.pow_le_pow_right (by decide) (by omega))

theorem pos_of_holds (hm : b.mantissa ≠ 0) {t : Int} {c : Nat} (h : b.holds (b.scale t) c = true) : 0 < c := by
  have hgap : b.gapBelow ≤ 2 := by unfold gapBelow; split <;> decide
  have hlow : 0 < (4 * b.mantissa - b.gapBelow) * (b.scale t).num :=
    Nat.mul_pos (by omega) (b.num_scale_pos t)
  by_contra hzero
  obtain rfl : c = 0 := by omega
  unfold holds at h
  dsimp only at h
  rw [Nat.zero_mul] at h
  split at h
  · have hle : _ ≤ 0 := of_decide_eq_true (Bool.and_eq_true_iff.1 h).1
    omega
  · have hlt : _ < 0 := of_decide_eq_true (Bool.and_eq_true_iff.1 h).1
    omega

theorem nearest_pos {s : Scale} (h : 0 < b.below s) : 0 < b.nearest s := by
  unfold nearest
  dsimp only
  split_ifs <;> omega

theorem hit?_pos (hm : b.mantissa ≠ 0) {t : Int} {c : Nat} (h : b.hit? (b.scale t) = some c) : 0 < c := by
  unfold hit? at h
  dsimp only at h
  split at h
  · next hlow _ =>
    cases h
    exact nearest_pos (pos_of_holds hm hlow)
  · next hlow _ =>
    cases h
    exact pos_of_holds hm hlow
  · next hhigh =>
    cases h
    exact pos_of_holds hm hhigh
  · cases h

theorem digits_shortestFrom_pos (hm : b.mantissa ≠ 0) {k : Int} : ∀ {fuel n : Nat},
    0 < b.below (b.scale (k - (n + fuel : Nat) + 1)) → 0 < (shortestFrom b k fuel n).digits
  | 0, n, h => nearest_pos h
  | fuel + 1, n, h => by
    unfold shortestFrom
    dsimp only
    split
    · next hhit => exact hit?_pos hm hhit
    · exact digits_shortestFrom_pos hm (by rwa [Nat.add_right_comm, Nat.add_assoc])

/-- The shortest decimal of a double isn't zero if the double isn't. -/
theorem digits_shortest_pos (hm : b.mantissa ≠ 0) (he : -1074 ≤ b.exponent) : 0 < b.shortest.digits :=
  digits_shortestFrom_pos hm (below_pos hm he)

theorem le_exponent_ofBits (bits : Nat) : -1074 ≤ (ofBits bits).exponent := by
  unfold ofBits
  dsimp only
  split
  · exact Int.le_refl _
  · show (-1074 : Int) ≤ _ - 1075
    omega

end Binary

namespace Layout

theorem exists_digit_ne_zero : ∀ {n : Nat}, 0 < n → ∃ c ∈ Nat.toDigits 10 n, c ≠ '0' := by
  intro n
  induction n using Nat.strongRecOn with
  | ind n ih =>
    intro hn
    rcases Nat.lt_or_ge n 10 with hlt | hge
    · exact ⟨n.digitChar, by simp [Nat.toDigits_of_lt_base hlt], by simpa using hn.ne'⟩
    · obtain ⟨c, hc, hne⟩ := ih (n / 10) (by omega) (by omega)
      exact ⟨c, by rw [Nat.toDigits_of_base_le (by decide) hge]; exact List.mem_append_left _ hc, hne⟩

theorem significant_ne_nil {n : Nat} (hn : 0 < n) : significant n ≠ [] := by
  obtain ⟨c, hc, hne⟩ := exists_digit_ne_zero hn
  unfold significant
  rw [Nat.toString_eq_repr, Nat.toList_repr, Ne, List.reverse_eq_nil_iff, List.dropWhile_eq_nil_iff]
  exact fun hall => hne (by simpa using hall c (List.mem_reverse.2 hc))

theorem writeDecimal_ne_nil {d : Decimal} (hd : 0 < d.digits) : plain.writeDecimal d ≠ [] := by
  unfold writeDecimal
  dsimp only
  split
  · split
    · simp
    · split <;> simp [plain]
  · split
    · next hnil => exact absurd hnil (significant_ne_nil hd)
    · simp
    · simp

theorem write_ne_empty (x : Float) : plain.write x ≠ "" := by
  unfold write
  split
  · decide
  · dsimp only
    split
    · simp [plain]
    · split
      · simp [plain]
      · next hm =>
        have hdigits : 0 < (Binary.ofBits x.toBits.toNat).shortest.digits :=
          Binary.digits_shortest_pos hm (Binary.le_exponent_ofBits _)
        have hchars := writeDecimal_ne_nil hdigits
        intro hempty
        rw [String.append_eq_empty_iff, String.ofList_eq_empty_iff] at hempty
        exact hchars hempty.2

end Layout

theorem Number.text_ne_empty : ∀ n : Number, n.text ≠ ""
  | .int n => by
    show toString n ≠ ""
    rw [Int.toString_eq_repr, Int.repr_eq_if]
    split
    · exact Nat.repr_ne_empty
    · simp
  | .real x => Layout.write_ne_empty x

/-- A value that counts as an answer has a wording. -/
theorem Json.display_ne_empty : ∀ {v : Json}, v.truthy = true → v.display ≠ ""
  | .null, h => nomatch h
  | .bool true, _ => by decide
  | .num n, _ => by
    unfold display inspect
    exact n.text_ne_empty
  | .str s, h => by simpa [truthy, display] using h
  | .arr xs, _ => by simp [display, inspect]
  | .obj fs, _ => by simp [display, inspect]

end Bundler
