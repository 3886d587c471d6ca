import Bundler.Json.Display
import Bundler.Json.Writer

/-!
# What fits

A value fits into bounds if each of its whole numbers has few enough digits and no more arrays and objects stand one
within the other than there are levels (`Json.Fits`). The values that fit can be written (`Json.encode_of_fits`), and no
others (`Json.exists_encode_eq_error`). To be shown they need at most one level more, since there a number takes a level
too. For every value there are bounds into which it fits.
-/

namespace Bundler

/-- The number is no double. -/
def Number.IsWhole : Number → Prop
  | int _ => True
  | real _ => False

def Number.Short (digits : Option Nat) (n : Number) : Prop :=
  ∀ limit ∈ digits, n.digits ≤ limit

/-- A power of ten has one digit more than its exponent. -/
theorem Number.lt_digits_pow {k : Nat} (hk : 0 < k) : k < (Number.int (Nat.pow 10 k)).digits := by
  show k < (Nat.toDigits 10 (Nat.pow 10 k)).length
  rw [← Nat.not_le, Nat.length_toDigits_le_iff (by decide) hk]
  exact Nat.lt_irrefl _

namespace Json

/-- All numbers and the keys of each object have a property. -/
inductive Every (number : Number → Prop) (keys : List String → Prop) : Json → Prop where
  | null : Every number keys null
  | bool (b : Bool) : Every number keys (bool b)
  | num {n : Number} (h : number n) : Every number keys (num n)
  | str (s : String) : Every number keys (str s)
  | arr {xs : List Json} (h : ∀ x ∈ xs, Every number keys x) : Every number keys (arr xs)
  | obj {fs : List (String × Json)} (hkeys : keys (fs.map Prod.fst)) (h : ∀ f ∈ fs, Every number keys f.2) :
      Every number keys (obj fs)

/-- The value holds no double. -/
def Whole : Json → Prop :=
  Every Number.IsWhole fun _ => True

/-- No object has a key twice. -/
def Keyed : Json → Prop :=
  Every (fun _ => True) List.Nodup

/-- The value can be told from its text. -/
def Exact : Json → Prop :=
  Every Number.IsWhole List.Nodup

/-- No whole number has too many digits. -/
def Short (digits : Option Nat) : Json → Prop :=
  Every (Number.Short digits) fun _ => True

theorem Every.imp {number number' : Number → Prop} {keys keys' : List String → Prop} {v : Json}
    (hnumber : ∀ n, number n → number' n) (hkeys : ∀ ks, keys ks → keys' ks) (h : v.Every number keys) :
    v.Every number' keys' := by
  induction h with
  | null => exact .null
  | bool b => exact .bool b
  | num h => exact .num (hnumber _ h)
  | str s => exact .str s
  | arr _ ih => exact .arr ih
  | obj hks _ ih => exact .obj (hkeys _ hks) ih

theorem Whole.exact {v : Json} (hw : v.Whole) (hk : v.Keyed) : v.Exact := by
  induction hw with
  | null => exact .null
  | bool b => exact .bool b
  | num h => exact .num h
  | str s => exact .str s
  | arr _ ih =>
    cases hk with
    | arr hk => exact .arr fun x hx => ih x hx (hk x hx)
  | obj _ _ ih =>
    cases hk with
    | obj hkeys hk => exact .obj hkeys fun f hf => ih f hf (hk f hf)

mutual

/-- How many arrays and objects stand one within the other. -/
def depth : Json → Nat
  | arr xs => depthItems xs + 1
  | obj fs => depthFields fs + 1
  | _ => 0

def depthItems : List Json → Nat
  | [] => 0
  | x :: xs => max x.depth (depthItems xs)

def depthFields : List (String × Json) → Nat
  | [] => 0
  | f :: fs => max f.2.depth (depthFields fs)

end

variable {digits : Option Nat} {levels : Nat} {way : Way} {b b' : Bounds} {v : Json}

theorem depthItems_le_iff {xs : List Json} : depthItems xs ≤ levels ↔ ∀ x ∈ xs, x.depth ≤ levels := by
  induction xs with
  | nil => simp [depthItems]
  | cons x xs ih => rw [depthItems, Nat.max_le, ih, List.forall_mem_cons]

theorem depthFields_le_iff {fs : List (String × Json)} :
    depthFields fs ≤ levels ↔ ∀ f ∈ fs, f.2.depth ≤ levels := by
  induction fs with
  | nil => simp [depthFields]
  | cons f fs ih => rw [depthFields, Nat.max_le, ih, List.forall_mem_cons]

/-- The value can be written within the bounds. -/
structure Fits (b : Bounds) (v : Json) : Prop where
  short : v.Short b.digits
  depth_le : v.depth ≤ b.levels

theorem short_none : ∀ v : Json, v.Short none
  | .null => .null
  | .bool b => .bool b
  | .num _ => .num (nofun)
  | .str s => .str s
  | .arr xs => .arr fun x _ => short_none x
  | .obj fs => .obj trivial fun f _ => short_none f.2
decreasing_by
  all_goals simp_wf
  · exact Nat.lt_add_left 1 (List.sizeOf_lt_of_mem ‹_›)
  · have hf := List.sizeOf_lt_of_mem ‹f ∈ fs›
    rw [show sizeOf f = 1 + sizeOf f.1 + sizeOf f.2 from rfl] at hf
    omega

/-- Every value fits somewhere. -/
theorem fits_depth (v : Json) : v.Fits ⟨none, v.depth⟩ :=
  ⟨v.short_none, Nat.le_refl _⟩

theorem Fits.mono (h : v.Fits b) (hdigits : b'.digits = b.digits) (hlevels : b.levels ≤ b'.levels) : v.Fits b' :=
  ⟨hdigits ▸ h.short, Nat.le_trans h.depth_le hlevels⟩

theorem Fits.arr {xs : List Json} (h : ∀ x ∈ xs, x.Fits ⟨digits, levels⟩) :
    (Json.arr xs).Fits ⟨digits, levels + 1⟩ :=
  ⟨.arr fun x hx => (h x hx).short, Nat.succ_le_succ (depthItems_le_iff.2 fun x hx => (h x hx).depth_le)⟩

theorem Fits.obj {fs : List (String × Json)} (h : ∀ f ∈ fs, f.2.Fits ⟨digits, levels⟩) :
    (Json.obj fs).Fits ⟨digits, levels + 1⟩ :=
  ⟨.obj trivial fun f hf => (h f hf).short, Nat.succ_le_succ (depthFields_le_iff.2 fun f hf => (h f hf).depth_le)⟩

/-- A field of a value stands one level deeper, if there is one. -/
theorem Fits.field (h : v.Fits b) (k : String) : (v.field k).Short b.digits ∧
    (v.field k = .null ∨ (v.field k).depth < b.levels) := by
  cases v with
  | obj fs =>
    obtain ⟨hshort, hdepth⟩ := h
    cases hshort with
    | obj _ hfs =>
      show ((fs.lookup k).getD .null).Short b.digits ∧ _
      cases hl : fs.lookup k with
      | none => exact ⟨.null, .inl (by simp [Json.field, field?, hl])⟩
      | some x =>
        obtain ⟨before, after, rfl, -⟩ := List.lookup_eq_some_iff.1 hl
        have hmem : (k, x) ∈ before ++ (k, x) :: after := List.mem_append_right _ (List.mem_cons_self ..)
        have hx : (Json.obj (before ++ (k, x) :: after)).field k = x := by simp [Json.field, field?, hl]
        have hle := depthFields_le_iff.1 (Nat.le_refl _) (k, x) hmem
        rw [depth] at hdepth
        rw [hx]
        exact ⟨hfs _ hmem, .inr (by dsimp only at hle; omega)⟩
  | _ => exact ⟨.null, .inl rfl⟩

theorem fits_null (b : Bounds) : null.Fits b := ⟨.null, Nat.zero_le _⟩

theorem fits_bool (b : Bounds) (x : Bool) : (bool x).Fits b := ⟨.bool x, Nat.zero_le _⟩

theorem fits_str (b : Bounds) (s : String) : (str s).Fits b := ⟨.str s, Nat.zero_le _⟩

/-! ### Nothing is too much -/

theorem brokenBy?_eq_none_iff {n : Number} : brokenBy? digits n = none ↔ n.Short digits := by
  cases digits with
  | none => simp [brokenBy?, Number.Short]
  | some limit => simp [brokenBy?, Number.Short, Option.filter]

theorem brokenBy?_of_lt {n : Number} {limit : Nat} (h : limit < n.digits) : brokenBy? (some limit) n = some limit := by
  simp [brokenBy?, Option.filter, h]

theorem excessOfItems?_eq_none_iff {xs : List Json} :
    excessOfItems? way digits levels xs = none ↔ ∀ x ∈ xs, excess? way digits levels x = none := by
  induction xs with
  | nil => simp [excessOfItems?]
  | cons x xs ih =>
    rw [excessOfItems?, List.forall_mem_cons, ← ih]
    cases excess? way digits levels x <;> simp

theorem excessOfFields?_eq_none_iff {fs : List (String × Json)} :
    excessOfFields? way digits levels fs = none ↔ ∀ f ∈ fs, excess? way digits levels f.2 = none := by
  induction fs with
  | nil => simp [excessOfFields?]
  | cons f fs ih =>
    rw [excessOfFields?, List.forall_mem_cons, ← ih]
    cases excess? way digits levels f.2 <;> simp

theorem excess?_eq_none (hv : v.Short digits) (hlevels : v.depth + way.leaf ≤ levels) :
    excess? way digits levels v = none := by
  induction hv generalizing levels with
  | null | bool | str => exact if_neg (Nat.not_lt.2 (by simpa [depth] using hlevels))
  | num h =>
    rw [show depth (num _) = 0 from rfl, Nat.zero_add] at hlevels
    show (if levels < way.leaf then _ else _) = none
    rw [if_neg (Nat.not_lt.2 hlevels), brokenBy?_eq_none_iff.2 h]
    rfl
  | arr _ ih =>
    rw [depth] at hlevels
    obtain ⟨levels, rfl⟩ : ∃ m, levels = m + 1 := ⟨levels - 1, by omega⟩
    rw [excess?, excessOfItems?_eq_none_iff]
    intro x hx
    have hitem := depthItems_le_iff.1 (Nat.le_refl _) x hx
    exact ih x hx (by omega)
  | obj _ _ ih =>
    rw [depth] at hlevels
    obtain ⟨levels, rfl⟩ : ∃ m, levels = m + 1 := ⟨levels - 1, by omega⟩
    rw [excess?, excessOfFields?_eq_none_iff]
    intro f hf
    have hfield := depthFields_le_iff.1 (Nat.le_refl _) f hf
    exact ih f hf (by omega)

theorem fits_of_excess? : ∀ {levels : Nat} {v : Json},
    excess? way digits levels v = none → v.Fits ⟨digits, levels⟩
  | _, .null, _ => fits_null _
  | _, .bool x, _ => fits_bool _ x
  | _, .str s, _ => fits_str _ s
  | levels, .num n, h => by
    rw [excess?] at h
    split at h
    · cases h
    · exact ⟨.num (brokenBy?_eq_none_iff.1 (Option.map_eq_none_iff.1 h)), Nat.zero_le _⟩
  | 0, .arr _, h => nomatch h
  | levels + 1, .arr xs, h => by
    rw [excess?, excessOfItems?_eq_none_iff] at h
    exact .arr fun x hx => fits_of_excess? (h x hx)
  | 0, .obj _, h => nomatch h
  | levels + 1, .obj fs, h => by
    rw [excess?, excessOfFields?_eq_none_iff] at h
    exact .obj fun f hf => fits_of_excess? (h f hf)

theorem excess?_eq_none_iff (hway : way.leaf = 0) :
    excess? way b.digits b.levels v = none ↔ v.Fits b :=
  ⟨fits_of_excess?, fun h => excess?_eq_none h.short (by rw [hway]; exact h.depth_le)⟩

/-! ### Texts of values -/

theorem converted_of_none {text : String} (h : excess? way b.digits b.levels v = none) :
    converted way b v text = .ok text := by
  rw [converted, h]

theorem converted_of_some {text : String} {e : Excess} (h : excess? way b.digits b.levels v = some e) :
    converted way b v text = .error e := by
  rw [converted, h]

theorem encode_of_fits (h : v.Fits b) : v.encode b = .ok v.write :=
  converted_of_none ((excess?_eq_none_iff rfl).2 h)

theorem encodeIndented_of_fits (h : v.Fits b) : v.encodeIndented b = .ok v.writeIndented :=
  converted_of_none ((excess?_eq_none_iff rfl).2 h)

/-- A value that doesn't fit isn't written. -/
theorem exists_converted_eq_error (hway : way.leaf = 0) (h : ¬ v.Fits b) (text : String) :
    ∃ e, excess? way b.digits b.levels v = some e ∧ converted way b v text = .error e := by
  obtain ⟨e, he⟩ := Option.ne_none_iff_exists'.1 (mt (excess?_eq_none_iff hway).1 h)
  exact ⟨e, he, converted_of_some he⟩

theorem exists_encode_eq_error (h : ¬ v.Fits b) :
    ∃ e, excess? .written b.digits b.levels v = some e ∧ v.encode b = .error e :=
  exists_converted_eq_error rfl h _

theorem exists_encodeIndented_eq_error (h : ¬ v.Fits b) :
    ∃ e, excess? .indented b.digits b.levels v = some e ∧ v.encodeIndented b = .error e :=
  exists_converted_eq_error rfl h _

theorem inspectWithin_of_short (h : v.Short b.digits) (hlevels : v.depth < b.levels) :
    v.inspectWithin b = .ok v.inspect :=
  converted_of_none (excess?_eq_none h hlevels)

theorem displayWithin_of_short (h : v.Short b.digits) (hlevels : v.depth < b.levels) :
    v.displayWithin b = .ok v.display := by
  cases v with
  | str s => rfl
  | _ => exact inspectWithin_of_short h hlevels

end Json

end Bundler
