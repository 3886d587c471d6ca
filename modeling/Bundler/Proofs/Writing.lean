import Mathlib.Data.List.TakeWhile
import Bundler.Json.Reader
import Bundler.Proofs.Bounding
import Bundler.Text.Search

/-!
# Reading what was written

A value that is written on one line is read again as the same value (`Json.parse_write`), if it holds no double and no
object of it has a key twice (`Json.Exact`), and if it fits into the bounds of the reader. The text has no characters but
printable ASCII, whatever the value holds (`Json.plain_write`), so that it never has a second line; what is written line
by line can be split into the lines again (`Text.pieces_lines`).

A value can be told from what stands behind it only if that doesn't go on with a number (`Reader.Closed`). Behind an
item there are blanks, and a comma or a bracket. Which blanks stand between the parts of a text makes no difference:
there is one lemma for each way in which a text that is read is put together (`Reader.Reads`, `Reader.ReadsItems`,
`Reader.ReadsFields`), and the text on one line is a case of them (`Reader.reads_value`).
-/

namespace Bundler

/-! ### Hexadecimal digits -/

namespace Text

theorem hexValue?_hexDigit : ∀ d < 16, hexValue? (hexDigit d) = some d := by decide

theorem hex_four (n : Nat) : hex 4 n =
    [hexDigit (n / 16 / 16 / 16 % 16), hexDigit (n / 16 / 16 % 16), hexDigit (n / 16 % 16), hexDigit (n % 16)] := rfl

/-- Printable ASCII. -/
def isPlain (c : Char) : Bool :=
  0x20 ≤ c.toNat && c.toNat < 0x7f

theorem isPlain_hexDigit : ∀ d < 16, isPlain (hexDigit d) = true := by decide

theorem isPlain_of_isDigit {c : Char} (h : c.isDigit = true) : isPlain c = true := by
  obtain ⟨hlow, hhigh⟩ : 48 ≤ c.toNat ∧ c.toNat ≤ 57 := by
    simpa [Char.isDigit, UInt32.le_iff_toNat_le] using h
  simp only [isPlain, Bool.and_eq_true, decide_eq_true_eq]
  omega

end Text

namespace Json

/-! ### Strings -/

namespace Writer

/-- The UTF-16 units of a character. -/
def unitsOf (c : Char) : List Nat :=
  if c.toNat < 0x10000 then [c.toNat]
  else [0xd800 + (c.toNat - 0x10000) / 0x400, 0xdc00 + (c.toNat - 0x10000) % 0x400]

end Writer

namespace Reader

open Writer

theorem hex4?_hex {n : Nat} (h : n < 0x10000) :
    hex4? (Text.hexDigit (n / 16 / 16 / 16 % 16)) (Text.hexDigit (n / 16 / 16 % 16)) (Text.hexDigit (n / 16 % 16))
      (Text.hexDigit (n % 16)) = some n := by
  have hvalue : ∀ m, Text.hexValue? (Text.hexDigit (m % 16)) = some (m % 16) := fun m =>
    Text.hexValue?_hexDigit _ (Nat.mod_lt m (by decide))
  unfold hex4?
  simp only [hvalue]
  show some _ = some n
  congr 1
  omega

theorem codes_unit {n : Nat} (h : n < 0x10000) (cs : List Char) :
    codes (unit n ++ cs) = (codes cs).map fun r => (n :: r.1, r.2) := by
  unfold unit
  rw [Text.hex_four]
  show codes ('\\' :: 'u' :: _ :: _ :: _ :: _ :: cs) = _
  rw [codes, hex4?_hex h]
  cases codes cs <;> rfl

theorem codes_escape {e : Char} {n : Nat} (he : e ≠ 'u') (hn : shortEscape? e = some n) (cs : List Char) :
    codes ('\\' :: e :: cs) = (codes cs).map fun r => (n :: r.1, r.2) := by
  rw [codes, hn]
  · cases codes cs <;> rfl
  · exact fun _ _ _ _ _ hu => absurd hu he

theorem codes_plain {c : Char} (hquote : c ≠ '"') (hslash : c ≠ '\\') (hc : 0x20 ≤ c.toNat) (cs : List Char) :
    codes (c :: cs) = (codes cs).map fun r => (c.toNat :: r.1, r.2) := by
  rw [codes, if_neg (by omega)]
  · cases codes cs <;> rfl
  · exact hquote
  · exact fun _ _ _ _ _ hc => absurd hc hslash
  · exact fun _ _ hc => absurd hc hslash

/-- No character is a surrogate. -/
theorem toNat_lt_or (c : Char) : c.toNat < 0xd800 ∨ 0xdfff < c.toNat ∧ c.toNat < 0x110000 := c.valid

theorem toNat_lt (c : Char) : c.toNat < 0x110000 := by
  rcases toNat_lt_or c with h | h <;> omega

/-- How a character is written: behind a backslash, as itself, or as its units. -/
inductive Written (c : Char) : List Char → Prop where
  | escape {e : Char} (he : e ≠ 'u') (hplain : Text.isPlain e = true) (hcode : shortEscape? e = some c.toNat)
      (hc : c.toNat < 0x80) : Written c ['\\', e]
  | plain (hquote : c ≠ '"') (hslash : c ≠ '\\') (hplain : Text.isPlain c = true) : Written c [c]
  | unit (hc : c.toNat < 0x10000) : Written c (unit c.toNat)
  | units (hc : 0x10000 ≤ c.toNat) :
      Written c (Writer.unit (0xd800 + (c.toNat - 0x10000) / 0x400) ++
        Writer.unit (0xdc00 + (c.toNat - 0x10000) % 0x400))

theorem written_char (c : Char) : Written c (Writer.char c) := by
  have hescape : ∀ {d e : Char}, c = d → e ≠ 'u' → Text.isPlain e = true → shortEscape? e = some d.toNat →
      d.toNat < 0x80 → Written c ['\\', e] := by
    rintro d e rfl he hplain hcode hd
    exact .escape he hplain hcode hd
  unfold Writer.char
  refine iteInduction (fun h => hescape h (by decide) rfl rfl (by decide)) fun hquote => ?_
  refine iteInduction (fun h => hescape h (by decide) rfl rfl (by decide)) fun hslash => ?_
  iterate 5 refine iteInduction (fun h => hescape h (by decide) rfl rfl (by decide)) fun _ => ?_
  refine iteInduction (fun h => .plain hquote hslash ?_) fun _ => iteInduction .unit fun h => .units (by omega)
  simpa [Text.isPlain] using h

theorem unitsOf_of_lt {c : Char} (h : c.toNat < 0x10000) : unitsOf c = [c.toNat] := if_pos h

/-- A character is read as its units. -/
theorem codes_char (c : Char) (cs : List Char) :
    codes (Writer.char c ++ cs) = (codes cs).map fun r => (unitsOf c ++ r.1, r.2) := by
  have h := written_char c
  generalize Writer.char c = ds at h
  cases h with
  | escape he _ hcode hc =>
    rw [unitsOf_of_lt (by omega)]
    exact codes_escape he hcode cs
  | plain hquote hslash hplain =>
    simp only [Text.isPlain, Bool.and_eq_true, decide_eq_true_eq] at hplain
    rw [unitsOf_of_lt (by omega)]
    exact codes_plain hquote hslash hplain.1 cs
  | unit hc =>
    rw [unitsOf_of_lt hc]
    exact codes_unit hc cs
  | units hc =>
    have hlt := toNat_lt c
    rw [unitsOf, if_neg (by omega), List.append_assoc, codes_unit (by omega), codes_unit (by omega), Option.map_map]
    rfl

theorem joinUnits_single {n : Nat} (hhigh : isHigh n = false) (hlow : isLow n = false) (ns : List Nat) :
    joinUnits (n :: ns) = Char.ofNat n :: joinUnits ns := by
  have hsingle : joinUnits.single n = Char.ofNat n := by simp [joinUnits.single, hhigh, hlow]
  cases ns with
  | nil => rw [joinUnits, joinUnits, hsingle]
  | cons m ns => rw [joinUnits, hhigh, Bool.false_and, if_neg Bool.false_ne_true, hsingle]

/-- Two units of one character are joined, and the unit of another one stands for itself. -/
theorem joinUnits_unitsOf (c : Char) (ns : List Nat) : joinUnits (unitsOf c ++ ns) = c :: joinUnits ns := by
  unfold unitsOf
  split
  · have hvalid := toNat_lt_or c
    have hhigh : isHigh c.toNat = false := by simp [isHigh]; omega
    have hlow : isLow c.toNat = false := by simp [isLow]; omega
    rw [List.singleton_append, joinUnits_single hhigh hlow, Char.ofNat_toNat]
  · have hc := toNat_lt c
    -- beyond the plane of 16 bits: ten bits in a high surrogate, ten in a low one
    have hhigh : isHigh (0xd800 + (c.toNat - 0x10000) / 0x400) = true := by simp [isHigh]; omega
    have hlow : isLow (0xdc00 + (c.toNat - 0x10000) % 0x400) = true := by simp [isLow]; omega
    have hjoin : 0x10000 + (0xd800 + (c.toNat - 0x10000) / 0x400 - 0xd800) * 0x400 +
        (0xdc00 + (c.toNat - 0x10000) % 0x400 - 0xdc00) = c.toNat := by omega
    show joinUnits (_ :: _ :: ns) = _
    rw [joinUnits, hhigh, hlow, Bool.true_and, if_pos rfl, hjoin, Char.ofNat_toNat]

theorem codes_chars (cs rest : List Char) :
    codes (cs.flatMap Writer.char ++ '"' :: rest) = some (cs.flatMap unitsOf, rest) := by
  induction cs with
  | nil => rfl
  | cons c cs ih => rw [List.flatMap_cons, List.append_assoc, codes_char, ih]; rfl

theorem joinUnits_flatMap (cs : List Char) : joinUnits (cs.flatMap unitsOf) = cs := by
  induction cs with
  | nil => rfl
  | cons c cs ih => rw [List.flatMap_cons, joinUnits_unitsOf, ih]

theorem string?_chars (s : String) (rest : List Char) :
    string? (s.toList.flatMap Writer.char ++ '"' :: rest) = some (s, rest) := by
  unfold string?
  rw [codes_chars, Option.map_some, joinUnits_flatMap, String.ofList_toList]

/-! ### Whole numbers -/

/-- What stands behind a number doesn't go on with it. -/
def Closed (rest : List Char) : Prop :=
  ∀ c ∈ rest.head?, c.isDigit = false ∧ c ≠ '.' ∧ c ≠ 'e' ∧ c ≠ 'E'

theorem exists_digits_eq {n : Nat} (hn : 0 < n) :
    ∃ c cs, Nat.toDigits 10 n = c :: cs ∧ c ≠ '0' := by
  induction n using Nat.strongRecOn with
  | ind n ih =>
    rcases Nat.lt_or_ge n 10 with hlt | hge
    · exact ⟨n.digitChar, [], Nat.toDigits_of_lt_base hlt, by simpa using hn.ne'⟩
    · obtain ⟨c, cs, hdigits, hc⟩ := ih (n / 10) (by omega) (by omega)
      exact ⟨c, cs ++ [(n % 10).digitChar], by rw [Nat.toDigits_of_base_le (by decide) hge, hdigits]; rfl, hc⟩

theorem isDigit_of_mem_digits {n : Nat} : ∀ c ∈ Nat.toDigits 10 n, c.isDigit = true := fun _ hc =>
  Nat.isDigit_of_mem_toDigits (by decide) (by decide) hc

theorem digits_eq_cons (n : Nat) : ∃ d ds, Nat.toDigits 10 n = d :: ds ∧ d.isDigit = true := by
  obtain ⟨d, ds, hds⟩ := List.exists_cons_of_ne_nil (Nat.toDigits_ne_nil (n := n) (b := 10))
  exact ⟨d, ds, hds, isDigit_of_mem_digits d (hds ▸ List.mem_cons_self ..)⟩

theorem span_digits {ds rest : List Char} (hds : ∀ c ∈ ds, c.isDigit = true) (hrest : Closed rest) :
    (ds ++ rest).takeWhile Char.isDigit = ds ∧ (ds ++ rest).dropWhile Char.isDigit = rest := by
  rw [List.takeWhile_append_of_pos hds, List.dropWhile_append_of_pos hds]
  cases rest with
  | nil => simp
  | cons c rest =>
    have hc : c.isDigit = false := (hrest c rfl).1
    simp [hc]

theorem whole?_digits (n : Nat) {rest : List Char} (hrest : Closed rest) :
    whole? (Nat.toDigits 10 n ++ rest) = some (Nat.toDigits 10 n, rest) := by
  rcases Nat.eq_zero_or_pos n with rfl | hn
  · rfl
  · obtain ⟨c, cs, hdigits, hc⟩ := exists_digits_eq hn
    have hall := isDigit_of_mem_digits (n := n)
    rw [hdigits] at hall ⊢
    obtain ⟨htake, hdrop⟩ := span_digits (fun d hd => hall d (List.mem_cons_of_mem c hd)) hrest
    rw [List.cons_append, whole?, if_pos (hall c (List.mem_cons_self ..)), htake, hdrop]
    exact hc

theorem fraction_of_closed {rest : List Char} (hrest : Closed rest) : fraction rest = (none, rest) := by
  cases rest with
  | nil => rfl
  | cons c rest =>
    rw [fraction]
    rintro _ ⟨⟩
    exact (hrest '.' rfl).2.1 rfl

theorem exponent_of_closed {rest : List Char} (hrest : Closed rest) : exponent rest = (none, rest) := by
  cases rest with
  | nil => rfl
  | cons c rest =>
    obtain ⟨-, -, he, hE⟩ := hrest c rfl
    simp [exponent, he, hE]

/-- The digits of a number are read as the number, with the sign in front of them. -/
theorem number?_digits {cs : List Char} {neg : Bool} {n : Nat} {rest : List Char} (hrest : Closed rest)
    (hcs : sign cs = (neg, Nat.toDigits 10 n ++ rest)) :
    number? cs = some (.int (if neg then -n else n), rest) := by
  unfold number?
  rw [hcs]
  simp only [whole?_digits n hrest, Option.bind_eq_bind, Option.bind_some]
  simp only [fraction_of_closed hrest, exponent_of_closed hrest]
  rw [Nat.ofDigitChars_toDigits (by decide) (by decide)]
  rfl

theorem ne_of_isDigit {c d : Char} (hc : c.isDigit = true) (hd : d.isDigit = false) : c ≠ d := by
  rintro rfl
  rw [hc] at hd
  cases hd

theorem word?_of_digit {c : Char} (hc : c.isDigit = true) (cs : List Char) : word? (c :: cs) = none := by
  have hne : ∀ d : Char, d.isDigit = false → d ≠ c := fun d hd => (ne_of_isDigit hc hd).symm
  simp [word?, words, hne 'n' rfl, hne 't' rfl, hne 'f' rfl, hne 'N' rfl, hne 'I' rfl, hne '-' rfl]

theorem word?_of_minus {c : Char} (hc : c.isDigit = true) (cs : List Char) : word? ('-' :: c :: cs) = none := by
  simp [word?, words, (ne_of_isDigit hc (d := 'I') rfl).symm]

theorem sign_of_digit {c : Char} (hc : c.isDigit = true) (cs : List Char) : sign (c :: cs) = (false, c :: cs) := by
  rw [sign]
  rintro _ ⟨⟩
  exact ne_of_isDigit hc rfl rfl

/-- A whole number is written as its digits, behind a minus if it is negative. -/
theorem number_int (i : Int) : Writer.number (.int i) =
    if i < 0 then '-' :: Nat.toDigits 10 i.natAbs else Nat.toDigits 10 i.natAbs := by
  show (toString i).toList = _
  rw [Int.toString_eq_repr, Int.repr_eq_if]
  split
  · rw [if_neg (by omega), Nat.toList_repr, show i.natAbs = i.toNat by omega]
  · rw [if_pos (by omega), String.toList_append, Nat.toList_repr, show i.natAbs = (-i).toNat by omega]
    rfl

theorem scalar?_int (i : Int) {rest : List Char} (hrest : Closed rest) :
    scalar? (Writer.number (.int i) ++ rest) = some (.num (.int i), rest) := by
  obtain ⟨d, ds, hds, hd⟩ := digits_eq_cons i.natAbs
  rw [number_int]
  split
  · have hword : word? ('-' :: Nat.toDigits 10 i.natAbs ++ rest) = none := by
      rw [hds]
      exact word?_of_minus hd _
    rw [scalar?, hword, number?_digits hrest rfl]
    show some (Json.num (.int (-(i.natAbs : Int))), rest) = _
    rw [show -(i.natAbs : Int) = i by omega]
  · have hword : word? (Nat.toDigits 10 i.natAbs ++ rest) = none := by
      rw [hds]
      exact word?_of_digit hd _
    have hsign : sign (Nat.toDigits 10 i.natAbs ++ rest) = (false, Nat.toDigits 10 i.natAbs ++ rest) := by
      rw [hds]
      exact sign_of_digit hd _
    rw [scalar?, hword, number?_digits hrest hsign]
    show some (Json.num (.int (i.natAbs : Int)), rest) = _
    rw [show (i.natAbs : Int) = i by omega]

end Reader

/-! ### Values -/

theorem putField_of_notMem {k : String} {v : Json} {fs : List (String × Json)} (hk : k ∉ fs.map Prod.fst) :
    putField k v fs = fs ++ [(k, v)] := by
  induction fs with
  | nil => rfl
  | cons f fs ih =>
    rw [List.map_cons, List.mem_cons, not_or] at hk
    rw [putField, if_neg (Ne.symm hk.1), ih hk.2, List.cons_append]

/-- Setting fields with keys of their own one after the other adds all of them. -/
theorem foldl_putField_of_nodup {ps fs : List (String × Json)} (h : ((fs ++ ps).map Prod.fst).Nodup) :
    ps.foldl (fun fs p => putField p.1 p.2 fs) fs = fs ++ ps := by
  induction ps generalizing fs with
  | nil => simp
  | cons p ps ih =>
    have hp : p.1 ∉ fs.map Prod.fst := by
      rw [List.map_append, List.map_cons, List.nodup_append] at h
      exact fun hmem => h.2.2 _ hmem _ (List.mem_cons_self ..) rfl
    rw [List.foldl_cons, putField_of_notMem hp, ih (by simpa using h), List.append_assoc]
    rfl

theorem ofPairs_of_nodup {ps : List (String × Json)} (h : (ps.map Prod.fst).Nodup) : ofPairs ps = ps :=
  @foldl_putField_of_nodup ps [] h

namespace Reader

/-- Blanks, as they may stand between the parts of a text. -/
def Blank (bs : List Char) : Prop :=
  ∀ c ∈ bs, isSpace c = true

theorem Blank.nil : Blank [] := List.forall_mem_nil _

theorem Blank.space : Blank [' '] := List.forall_mem_singleton.2 rfl

/-- The text begins with a character that isn't skipped and that doesn't end an array or an object. -/
def Starts (cs : List Char) : Prop :=
  ∃ c ds, cs = c :: ds ∧ isSpace c = false ∧ c ∉ [']', '\x7d']

theorem Starts.append {cs : List Char} (h : Starts cs) (ds : List Char) : Starts (cs ++ ds) := by
  obtain ⟨c, cs, rfl, hspace, hend⟩ := h
  exact ⟨c, cs ++ ds, rfl, hspace, hend⟩

theorem skip_blank {bs : List Char} (hbs : Blank bs) {c : Char} (hc : isSpace c = false) (cs : List Char) :
    skip (bs ++ c :: cs) = c :: cs := by
  rw [skip, List.dropWhile_append_of_pos hbs, List.dropWhile_cons, if_neg (by simp [hc])]

theorem Starts.skip_blank {cs bs : List Char} (h : Starts cs) (hbs : Blank bs) : skip (bs ++ cs) = cs := by
  obtain ⟨c, cs, rfl, hspace, -⟩ := h
  exact Reader.skip_blank hbs hspace cs

theorem starts_of_isDigit {c : Char} (hc : c.isDigit = true) (cs : List Char) : Starts (c :: cs) := by
  have hspace : isSpace c = false := by
    simp [isSpace, ne_of_isDigit hc (d := ' ') rfl, ne_of_isDigit hc (d := '\t') rfl,
      ne_of_isDigit hc (d := '\n') rfl, ne_of_isDigit hc (d := '\r') rfl]
  exact ⟨c, cs, rfl, hspace, by simp [ne_of_isDigit hc (d := ']') rfl, ne_of_isDigit hc (d := '\x7d') rfl]⟩

theorem starts_number (i : Int) : Starts (Writer.number (.int i)) := by
  obtain ⟨d, ds, hds, hd⟩ := digits_eq_cons i.natAbs
  rw [number_int]
  split
  · exact ⟨'-', _, rfl, rfl, by decide⟩
  · rw [hds]
    exact starts_of_isDigit hd ds

/-- Behind a value there are blanks, and a comma or what ends an array or an object. -/
theorem closed_of_mem {bs : List Char} (hbs : Blank bs) {c : Char} (hc : c ∈ [',', ']', '\x7d']) (cs : List Char) :
    Closed (bs ++ c :: cs) := by
  intro d hd
  cases bs with
  | nil =>
    cases hd
    simp only [List.mem_cons, List.not_mem_nil, or_false] at hc
    rcases hc with rfl | rfl | rfl <;> decide
  | cons b bs =>
    cases hd
    have hb := hbs d (List.mem_cons_self ..)
    simp only [isSpace, Bool.or_eq_true, beq_iff_eq] at hb
    rcases hb with ((rfl | rfl) | rfl) | rfl <;> decide

/-- The value is read from the text, whatever stands behind it. -/
structure Reads (digits : Option Nat) (v : Json) (cs : List Char) : Prop where
  starts : Starts cs
  value : ∀ n levels rest, cs.length ≤ n → v.depth ≤ levels → Closed rest →
    value digits n levels (cs ++ rest) = .ok (v, rest)

/-- The items are read from the text, which ends the array. -/
structure ReadsItems (digits : Option Nat) (xs : List Json) (cs : List Char) : Prop where
  starts : Starts cs
  items : ∀ n levels rest, cs.length ≤ n → depthItems xs ≤ levels →
    items digits n levels (cs ++ rest) = .ok (xs, rest)

/-- The fields are read from the text, which ends the object. -/
structure ReadsFields (digits : Option Nat) (fs : List (String × Json)) (cs : List Char) : Prop where
  starts : Starts cs
  members : ∀ n levels rest, cs.length ≤ n → depthFields fs ≤ levels →
    members digits n levels (cs ++ rest) = .ok (fs, rest)

variable {digits : Option Nat}

/-! ### Single values -/

theorem Reads.of_succ {v : Json} {cs : List Char} (hstarts : Starts cs)
    (h : ∀ n levels rest, cs.length ≤ n + 1 → v.depth ≤ levels → Closed rest →
      Reader.value digits (n + 1) levels (cs ++ rest) = .ok (v, rest)) : Reads digits v cs := by
  refine ⟨hstarts, fun n levels rest hn => ?_⟩
  obtain ⟨c, ds, rfl, -⟩ := hstarts
  obtain ⟨n, rfl⟩ : ∃ m, n = m + 1 := ⟨n - 1, by rw [List.length_cons] at hn; omega⟩
  exact h n levels rest hn

theorem value_string (n levels : Nat) (s : String) (rest : List Char) :
    value digits (n + 1) levels (Writer.string s ++ rest) = .ok (.str s, rest) := by
  rw [Writer.string, List.append_assoc]
  show orMalformed ((string? (s.toList.flatMap Writer.char ++ '"' :: rest)).map _) = _
  rw [string?_chars]
  rfl

theorem value_scalar {c : Char} (hquote : c ≠ '"') (hbracket : c ≠ '[') (hbrace : c ≠ '\x7b') (n levels : Nat)
    (cs : List Char) :
    value digits (n + 1) levels (c :: cs) = orMalformed (scalar? (c :: cs)) >>= checked digits := by
  rw [value]
  · rintro _ ⟨⟩
    exact hquote rfl
  · rintro _ ⟨⟩
    exact hbracket rfl
  · rintro _ ⟨⟩
    exact hbrace rfl

/-- A whole number is read, and then its digits are counted. -/
theorem value_int (n levels : Nat) (i : Int) {rest : List Char} (hrest : Closed rest) :
    value digits (n + 1) levels (Writer.number (.int i) ++ rest) = checked digits (.num (.int i), rest) := by
  have hscalar := scalar?_int i hrest
  obtain ⟨d, ds, hds, hd⟩ := digits_eq_cons i.natAbs
  rw [number_int] at hscalar ⊢
  split
  · rw [if_pos ‹_›] at hscalar
    rw [List.cons_append] at hscalar ⊢
    rw [value_scalar (by decide) (by decide) (by decide), hscalar]
    rfl
  · rw [if_neg ‹_›, hds] at hscalar
    rw [hds]
    rw [List.cons_append] at hscalar ⊢
    rw [value_scalar (ne_of_isDigit hd rfl) (ne_of_isDigit hd rfl) (ne_of_isDigit hd rfl), hscalar]
    rfl

theorem checked_of_short {n : Number} (h : n.Short digits) (rest : List Char) :
    checked digits (.num n, rest) = .ok (.num n, rest) := by
  unfold checked
  simp only [brokenBy?_eq_none_iff.2 h]

theorem checked_of_long {n : Number} {limit : Nat} (h : brokenBy? digits n = some limit) (rest : List Char) :
    checked digits (.num n, rest) = .error (.excess (.digits limit (some n.digits))) := by
  unfold checked
  simp only [h]

theorem reads_null : Reads digits .null (Writer.value .null) :=
  .of_succ ⟨'n', _, rfl, rfl, by decide⟩ fun _ _ _ _ _ _ => rfl

theorem reads_bool (b : Bool) : Reads digits (.bool b) (Writer.value (.bool b)) := by
  cases b
  · exact .of_succ ⟨'f', _, rfl, rfl, by decide⟩ fun _ _ _ _ _ _ => rfl
  · exact .of_succ ⟨'t', _, rfl, rfl, by decide⟩ fun _ _ _ _ _ _ => rfl

theorem reads_number {m : Number} (h : m.IsWhole) (hm : m.Short digits) :
    Reads digits (.num m) (Writer.number m) := by
  cases m with
  | int i =>
    exact .of_succ (starts_number i) fun n levels rest _ _ hrest =>
      (value_int n levels i hrest).trans (checked_of_short hm rest)
  | real x => exact h.elim

theorem reads_string (s : String) : Reads digits (.str s) (Writer.string s) :=
  .of_succ ⟨'"', _, rfl, rfl, by decide⟩ fun n levels rest _ _ _ => value_string n levels s rest

/-! ### Arrays -/

theorem reads_nil {bs : List Char} (hbs : Blank bs) : Reads digits (.arr []) ('[' :: (bs ++ [']'])) := by
  refine .of_succ ⟨'[', _, rfl, rfl, by decide⟩ fun n levels rest _ hlevels _ => ?_
  obtain ⟨levels, rfl⟩ : ∃ m, levels = m + 1 := ⟨levels - 1, by rw [depth] at hlevels; omega⟩
  rw [List.cons_append, List.append_assoc, value, List.singleton_append, skip_blank hbs (by decide)]
  rfl

/-- The last item, with what ends the array. -/
theorem ReadsItems.last {v : Json} {cs bs : List Char} (h : Reads digits v cs) (hbs : Blank bs) :
    ReadsItems digits [v] (cs ++ (bs ++ [']'])) := by
  refine ⟨h.starts.append _, fun n levels rest hn hlevels => ?_⟩
  simp only [List.length_append, List.length_cons, List.length_nil] at hn
  obtain ⟨n, rfl⟩ : ∃ m, n = m + 1 := ⟨n - 1, by omega⟩
  rw [depthItems] at hlevels
  have hvalue := h.value n levels (bs ++ ']' :: rest) (by omega) (by omega) (closed_of_mem hbs (by simp) _)
  simp only [List.append_assoc, List.singleton_append]
  rw [Reader.items, hvalue]
  simp only [skip_blank hbs (show isSpace ']' = false from rfl)]

/-- An item in front of others. The fuel that is left is enough for both, since each has a text of its own. -/
theorem ReadsItems.more {v : Json} {cs bs bs' : List Char} (h : Reads digits v cs) (hbs : Blank bs) (hbs' : Blank bs')
    {vs : List Json} {ds : List Char} (hs : ReadsItems digits vs ds) :
    ReadsItems digits (v :: vs) (cs ++ (bs ++ ',' :: (bs' ++ ds))) := by
  refine ⟨h.starts.append _, fun n levels rest hn hlevels => ?_⟩
  simp only [List.length_append, List.length_cons] at hn
  obtain ⟨n, rfl⟩ : ∃ m, n = m + 1 := ⟨n - 1, by omega⟩
  rw [depthItems] at hlevels
  have hvalue := h.value n levels (bs ++ ',' :: (bs' ++ (ds ++ rest))) (by omega) (by omega)
    (closed_of_mem hbs (by simp) _)
  simp only [List.append_assoc, List.cons_append]
  rw [Reader.items, hvalue]
  simp only [skip_blank hbs (show isSpace ',' = false from rfl), (hs.starts.append rest).skip_blank hbs']
  rw [hs.items n levels rest (by omega) (by omega)]
  rfl

theorem ReadsItems.array {xs : List Json} {cs bs : List Char} (h : ReadsItems digits xs cs) (hbs : Blank bs) :
    Reads digits (.arr xs) ('[' :: (bs ++ cs)) := by
  refine .of_succ ⟨'[', _, rfl, rfl, by decide⟩ fun n levels rest hn hlevels _ => ?_
  rw [List.length_cons, List.length_append] at hn
  rw [depth] at hlevels
  obtain ⟨levels, rfl⟩ : ∃ m, levels = m + 1 := ⟨levels - 1, by omega⟩
  have hitems := h.items n levels rest (by omega) (by omega)
  rw [List.cons_append, List.append_assoc, value, (h.starts.append rest).skip_blank hbs]
  obtain ⟨c, ds, rfl, -, hend⟩ := h.starts
  split
  · next heq => simp [(List.cons.inj heq).1] at hend
  · rw [hitems]
    rfl

/-! ### Objects -/

theorem reads_empty {bs : List Char} (hbs : Blank bs) : Reads digits (.obj []) ('\x7b' :: (bs ++ ['\x7d'])) := by
  refine .of_succ ⟨'\x7b', _, rfl, rfl, by decide⟩ fun n levels rest _ hlevels _ => ?_
  obtain ⟨levels, rfl⟩ : ∃ m, levels = m + 1 := ⟨levels - 1, by rw [depth] at hlevels; omega⟩
  rw [List.cons_append, List.append_assoc, value, List.singleton_append, skip_blank hbs (by decide)]
  rfl

theorem starts_string (k : String) : Starts (Writer.string k) :=
  ⟨'"', _, rfl, rfl, by decide⟩

/-- Behind a key there is a colon, and then the value. -/
theorem skip_colon (cs : List Char) : skip (':' :: cs) = ':' :: cs :=
  @skip_blank [] .nil ':' rfl cs

/-- The last field, with what ends the object. -/
theorem ReadsFields.last {v : Json} {cs bs bs' : List Char} (h : Reads digits v cs) (hbs : Blank bs) (hbs' : Blank bs')
    (k : String) : ReadsFields digits [(k, v)] (Writer.string k ++ ':' :: (bs ++ (cs ++ (bs' ++ ['\x7d'])))) := by
  refine ⟨(starts_string k).append _, fun n levels rest hn hlevels => ?_⟩
  simp only [List.length_append, List.length_cons, List.length_nil] at hn
  obtain ⟨n, rfl⟩ : ∃ m, n = m + 1 := ⟨n - 1, by omega⟩
  rw [depthFields] at hlevels
  dsimp only at hlevels
  have hvalue := h.value n levels (bs' ++ '\x7d' :: rest) (by omega) (by omega) (closed_of_mem hbs' (by simp) _)
  simp only [Writer.string, List.append_assoc, List.cons_append, List.nil_append]
  rw [Reader.members, string?_chars]
  simp only [skip_colon, (h.starts.append _).skip_blank hbs, hvalue,
    skip_blank hbs' (show isSpace '\x7d' = false from rfl)]

/-- A field in front of others. -/
theorem ReadsFields.more {v : Json} {cs bs bs' bs'' : List Char} (h : Reads digits v cs) (hbs : Blank bs)
    (hbs' : Blank bs') (hbs'' : Blank bs'') {fs : List (String × Json)} {ds : List Char} (hs : ReadsFields digits fs ds) (k : String) :
    ReadsFields digits ((k, v) :: fs) (Writer.string k ++ ':' :: (bs ++ (cs ++ (bs' ++ ',' :: (bs'' ++ ds))))) := by
  refine ⟨(starts_string k).append _, fun n levels rest hn hlevels => ?_⟩
  simp only [List.length_append, List.length_cons] at hn
  obtain ⟨n, rfl⟩ : ∃ m, n = m + 1 := ⟨n - 1, by omega⟩
  rw [depthFields] at hlevels
  dsimp only at hlevels
  have hvalue := h.value n levels (bs' ++ ',' :: (bs'' ++ (ds ++ rest))) (by omega) (by omega)
    (closed_of_mem hbs' (by simp) _)
  simp only [Writer.string, List.append_assoc, List.cons_append, List.nil_append]
  rw [Reader.members, string?_chars]
  simp only [skip_colon, (h.starts.append _).skip_blank hbs, hvalue,
    skip_blank hbs' (show isSpace ',' = false from rfl), (hs.starts.append rest).skip_blank hbs'']
  rw [hs.members n levels rest (by omega) (by omega)]
  rfl

theorem ReadsFields.object {fs : List (String × Json)} {cs bs : List Char} (h : ReadsFields digits fs cs)
    (hbs : Blank bs) (hkeys : (fs.map Prod.fst).Nodup) : Reads digits (.obj fs) ('\x7b' :: (bs ++ cs)) := by
  refine .of_succ ⟨'\x7b', _, rfl, rfl, by decide⟩ fun n levels rest hn hlevels _ => ?_
  rw [List.length_cons, List.length_append] at hn
  rw [depth] at hlevels
  obtain ⟨levels, rfl⟩ : ∃ m, levels = m + 1 := ⟨levels - 1, by omega⟩
  have hmembers := h.members n levels rest (by omega) (by omega)
  rw [List.cons_append, List.append_assoc, value, (h.starts.append rest).skip_blank hbs]
  obtain ⟨c, ds, rfl, -, hend⟩ := h.starts
  split
  · next heq => simp [(List.cons.inj heq).1] at hend
  · rw [hmembers, Except.map, ofPairs_of_nodup hkeys]

/-! ### The text on one line -/

theorem reads_items {xs : List Json} (hne : xs ≠ []) (hxs : ∀ x ∈ xs, Reads digits x (Writer.value x)) :
    ReadsItems digits xs (Writer.items xs ++ [']']) := by
  induction xs with
  | nil => exact absurd rfl hne
  | cons x xs ih =>
    obtain ⟨hx, hxs⟩ := List.forall_mem_cons.1 hxs
    cases xs with
    | nil => exact .last hx .nil
    | cons y ys =>
      rw [Writer.items, List.append_assoc]
      exact .more hx .nil .space (ih (by simp) hxs)

theorem reads_fields {fs : List (String × Json)} (hne : fs ≠ []) (hfs : ∀ f ∈ fs, Reads digits f.2 (Writer.value f.2)) :
    ReadsFields digits fs (Writer.fields fs ++ ['\x7d']) := by
  induction fs with
  | nil => exact absurd rfl hne
  | cons f fs ih =>
    obtain ⟨k, v⟩ := f
    obtain ⟨hv, hfs⟩ := List.forall_mem_cons.1 hfs
    cases fs with
    | nil =>
      rw [Writer.fields, List.append_assoc]
      exact .last hv .space .nil k
    | cons g gs =>
      rw [Writer.fields, List.append_assoc, List.append_assoc]
      exact .more hv .space .nil .space (ih (by simp) hfs) k

/-- What is written on one line is read again. -/
theorem reads_value {v : Json} (hv : v.Exact) (hshort : v.Short digits) : Reads digits v (Writer.value v) := by
  induction hv with
  | null => exact reads_null
  | bool b => exact reads_bool b
  | num h =>
    cases hshort with
    | num hn => exact reads_number h hn
  | str s => exact reads_string s
  | @arr xs _ ih =>
    cases hshort with
    | arr hxs =>
      cases xs with
      | nil => exact reads_nil .nil
      | cons x xs => exact (reads_items (by simp) fun y hy => ih y hy (hxs y hy)).array .nil
  | @obj fs hkeys _ ih =>
    cases hshort with
    | obj _ hfs =>
      cases fs with
      | nil => exact reads_empty .nil
      | cons f fs => exact (reads_fields (by simp) fun g hg => ih g hg (hfs g hg)).object .nil hkeys

end Reader

variable {b : Bounds}

/-- A text from which a value is read stands for it, also with blanks behind it. -/
theorem parse_of_reads {v : Json} {cs bs : List Char} (h : Reader.Reads b.digits v cs) (hbs : Reader.Blank bs)
    (hlevels : v.depth ≤ b.levels) : parse b (String.ofList (cs ++ bs)) = .ok v := by
  have hclosed : Reader.Closed bs := by
    have hcomma := Reader.closed_of_mem hbs (List.mem_cons_self ..) []
    cases bs with
    | nil => simp [Reader.Closed]
    | cons b bs => exact hcomma
  have hread := h.value (2 * (cs ++ bs).length + 2) b.levels bs (by rw [List.length_append]; omega) hlevels hclosed
  have hskip : Reader.skip (cs ++ bs) = cs ++ bs := (h.starts.append bs).skip_blank .nil
  have hrest : Reader.skip bs = [] := List.dropWhile_eq_nil_iff.2 hbs
  unfold parse
  simp only [String.toList_ofList]
  rw [hskip, hread]
  simp [hrest]

/-- What was written is read as the same value, wherever it fits. -/
theorem parse_write {v : Json} (hv : v.Exact) (hfits : v.Fits b) : parse b v.write = .ok v := by
  have hread := parse_of_reads (Reader.reads_value hv hfits.short) .nil hfits.depth_le
  rwa [List.append_nil] at hread

/-- An object with a number that is too long isn't read. -/
theorem parse_long {i : Int} {limit : Nat} (hi : brokenBy? b.digits (.int i) = some limit) (hlevels : 0 < b.levels)
    (k : String) : parse b (obj [(k, .int i)]).write =
      .error (.excess (.digits limit (some (Number.int i).digits))) := by
  obtain ⟨digits, levels⟩ := b
  obtain ⟨levels, rfl⟩ : ∃ m, levels = m + 1 := ⟨levels - 1, by dsimp only at hlevels; omega⟩
  let number := Writer.number (.int i) ++ ['\x7d']
  let field := Writer.string k ++ ':' :: ' ' :: number
  have hvalue : ∀ n, Reader.value digits (n + 1) levels number =
      .error (.excess (.digits limit (some (Number.int i).digits))) := fun n =>
    (Reader.value_int n levels i (Reader.closed_of_mem .nil (by simp) [])).trans (Reader.checked_of_long hi _)
  have hblank : Reader.skip (' ' :: number) = number := ((Reader.starts_number i).append _).skip_blank .space
  have hmembers : ∀ n, Reader.members digits (n + 2) levels field =
      .error (.excess (.digits limit (some (Number.int i).digits))) := by
    intro n
    simp only [field, Writer.string, List.append_assoc, List.cons_append, List.nil_append]
    rw [Reader.members, Reader.string?_chars]
    simp only [Reader.skip_colon, hblank, hvalue]
  have hobject : ∀ n, Reader.value digits (n + 3) (levels + 1) ('\x7b' :: field) =
      .error (.excess (.digits limit (some (Number.int i).digits))) := by
    intro n
    have hskip : Reader.skip field = field := ((Reader.starts_string k).append _).skip_blank .nil
    rw [Reader.value, hskip]
    show Except.map _ (Reader.members digits (n + 2) levels field) = _
    rw [hmembers]
    rfl
  have htext : (obj [(k, .int i)]).write = String.ofList ('\x7b' :: field) := by
    simp [write, Writer.value, Writer.fields, Json.int, field, number]
  unfold parse
  rw [htext]
  simp only [String.toList_ofList, List.length_cons]
  rw [show Reader.skip ('\x7b' :: field) = '\x7b' :: field from rfl,
    show 2 * (field.length + 1) + 2 = 2 * field.length + 1 + 3 by omega, hobject]

/-! ### The characters of a text -/

namespace Writer

open Text

theorem isDigit_of_mem_nat {n : Nat} : ∀ c ∈ (toString n).toList, c.isDigit = true := by
  rw [Nat.toString_eq_repr, Nat.toList_repr]
  exact Reader.isDigit_of_mem_digits

theorem isPlain_of_mem_significant {n : Nat} : ∀ c ∈ Layout.significant n, isPlain c = true := by
  intro c hc
  unfold Layout.significant at hc
  rw [List.mem_reverse] at hc
  exact isPlain_of_isDigit (isDigit_of_mem_nat c (List.mem_reverse.1 ((List.dropWhile_sublist _).subset hc)))

theorem isPlain_of_mem_zeros {n : Nat} : ∀ c ∈ Layout.zeros n, isPlain c = true := by
  intro c hc
  rw [List.eq_of_mem_replicate hc]
  rfl

theorem isPlain_of_mem_exponentPart {x : Int} : ∀ c ∈ Layout.exponentPart x, isPlain c = true := by
  have hdigits : ∀ c ∈ (toString x.natAbs).toList, isPlain c = true := fun c hc =>
    isPlain_of_isDigit (isDigit_of_mem_nat c hc)
  unfold Layout.exponentPart
  dsimp only
  refine List.forall_mem_cons.2 ⟨rfl, List.forall_mem_cons.2 ⟨by split <;> rfl, ?_⟩⟩
  split
  · exact List.forall_mem_cons.2 ⟨rfl, hdigits⟩
  · exact hdigits

theorem isPlain_of_mem_writeDecimal (l : Layout) (d : Decimal) : ∀ c ∈ l.writeDecimal d, isPlain c = true := by
  have hdigits := isPlain_of_mem_significant (n := d.digits)
  have htake : ∀ n, ∀ c ∈ (Layout.significant d.digits).take n, isPlain c = true := fun n c hc =>
    hdigits c (List.mem_of_mem_take hc)
  have hdrop : ∀ n, ∀ c ∈ (Layout.significant d.digits).drop n, isPlain c = true := fun n c hc =>
    hdigits c (List.mem_of_mem_drop hc)
  unfold Layout.writeDecimal
  dsimp only
  split
  · split
    · exact List.forall_mem_cons.2 ⟨rfl, List.forall_mem_cons.2 ⟨rfl, List.forall_mem_append.2
        ⟨isPlain_of_mem_zeros, hdigits⟩⟩⟩
    · have hwhole : ∀ n m, ∀ c ∈ (Layout.significant d.digits).take n ++ Layout.zeros m, isPlain c = true :=
        fun n m => List.forall_mem_append.2 ⟨htake n, isPlain_of_mem_zeros⟩
      split
      · split
        · exact List.forall_mem_append.2 ⟨hwhole _ _, List.all_eq_true.1 (by decide)⟩
        · exact hwhole _ _
      · exact List.forall_mem_append.2 ⟨hwhole _ _, List.forall_mem_cons.2 ⟨rfl, hdrop _⟩⟩
  · split
    · next h => simp
    · next c h =>
      rw [h, List.forall_mem_singleton] at hdigits
      exact List.forall_mem_cons.2 ⟨hdigits, isPlain_of_mem_exponentPart⟩
    · next c cs _ h =>
      rw [h, List.forall_mem_cons] at hdigits
      exact List.forall_mem_cons.2 ⟨hdigits.1, List.forall_mem_cons.2 ⟨rfl, List.forall_mem_append.2
        ⟨hdigits.2, isPlain_of_mem_exponentPart⟩⟩⟩

theorem isPlain_of_mem_layout (x : Float) : ∀ c ∈ (layout.write x).toList, isPlain c = true := by
  have hsign : ∀ b : Prop, [Decidable b] → ∀ c ∈ (if b then "-" else "").toList, isPlain c = true := by
    intro b _
    split <;> exact List.all_eq_true.1 (by decide)
  unfold Layout.write
  dsimp only
  split
  · exact List.all_eq_true.1 (by decide)
  · split
    · rw [String.toList_append]
      exact List.forall_mem_append.2 ⟨hsign _, List.all_eq_true.1 (by decide)⟩
    · split
      · rw [String.toList_append]
        exact List.forall_mem_append.2 ⟨hsign _, List.all_eq_true.1 (by decide)⟩
      · rw [String.toList_append, String.toList_ofList]
        exact List.forall_mem_append.2 ⟨hsign _, isPlain_of_mem_writeDecimal _ _⟩

theorem isPlain_of_mem_number : ∀ n : Number, ∀ c ∈ number n, isPlain c = true
  | .real x => isPlain_of_mem_layout x
  | .int i => by
    have hdigits : ∀ c ∈ Nat.toDigits 10 i.natAbs, isPlain c = true := fun c hc =>
      isPlain_of_isDigit (Reader.isDigit_of_mem_digits c hc)
    rw [Reader.number_int]
    split
    · exact List.forall_mem_cons.2 ⟨rfl, hdigits⟩
    · exact hdigits

theorem isPlain_of_mem_unit (n : Nat) : ∀ c ∈ unit n, isPlain c = true := by
  have hdigit : ∀ m, isPlain (hexDigit (m % 16)) = true := fun m => isPlain_hexDigit _ (Nat.mod_lt m (by decide))
  unfold unit
  rw [hex_four]
  simp only [List.forall_mem_cons, hdigit, true_and]
  exact ⟨rfl, rfl, by simp⟩

theorem isPlain_of_mem_char (c : Char) : ∀ d ∈ char c, isPlain d = true := by
  have h := Reader.written_char c
  generalize char c = ds at h
  cases h with
  | escape _ hplain _ _ => exact List.forall_mem_cons.2 ⟨rfl, List.forall_mem_singleton.2 hplain⟩
  | plain _ _ hplain => exact List.forall_mem_singleton.2 hplain
  | unit _ => exact isPlain_of_mem_unit _
  | units _ => exact List.forall_mem_append.2 ⟨isPlain_of_mem_unit _, isPlain_of_mem_unit _⟩

theorem isPlain_of_mem_string (s : String) : ∀ c ∈ string s, isPlain c = true := by
  unfold string
  refine List.forall_mem_append.2 ⟨List.forall_mem_cons.2 ⟨rfl, fun c hc => ?_⟩, List.all_eq_true.1 (by decide)⟩
  obtain ⟨d, _, hd⟩ := List.mem_flatMap.1 hc
  exact isPlain_of_mem_char d c hd

mutual

theorem isPlain_of_mem_value : ∀ v : Json, ∀ c ∈ value v, isPlain c = true
  | .null => List.all_eq_true.1 (by decide)
  | .bool true => List.all_eq_true.1 (by decide)
  | .bool false => List.all_eq_true.1 (by decide)
  | .num n => isPlain_of_mem_number n
  | .str s => isPlain_of_mem_string s
  | .arr xs => List.forall_mem_append.2 ⟨List.forall_mem_cons.2 ⟨rfl, isPlain_of_mem_items xs⟩,
      List.all_eq_true.1 (by decide)⟩
  | .obj fs => List.forall_mem_append.2 ⟨List.forall_mem_cons.2 ⟨rfl, isPlain_of_mem_fields fs⟩,
      List.all_eq_true.1 (by decide)⟩

theorem isPlain_of_mem_items : ∀ xs : List Json, ∀ c ∈ items xs, isPlain c = true
  | [] => by simp [items]
  | [v] => isPlain_of_mem_value v
  | v :: w :: vs => List.forall_mem_append.2 ⟨isPlain_of_mem_value v,
      List.forall_mem_cons.2 ⟨rfl, List.forall_mem_cons.2 ⟨rfl, isPlain_of_mem_items (w :: vs)⟩⟩⟩

theorem isPlain_of_mem_fields : ∀ fs : List (String × Json), ∀ c ∈ fields fs, isPlain c = true
  | [] => by simp [fields]
  | [(k, v)] => List.forall_mem_append.2 ⟨isPlain_of_mem_string k,
      List.forall_mem_cons.2 ⟨rfl, List.forall_mem_cons.2 ⟨rfl, isPlain_of_mem_value v⟩⟩⟩
  | (k, v) :: f :: fs => List.forall_mem_append.2 ⟨List.forall_mem_append.2 ⟨isPlain_of_mem_string k,
      List.forall_mem_cons.2 ⟨rfl, List.forall_mem_cons.2 ⟨rfl, isPlain_of_mem_value v⟩⟩⟩,
      List.forall_mem_cons.2 ⟨rfl, List.forall_mem_cons.2 ⟨rfl, isPlain_of_mem_fields (f :: fs)⟩⟩⟩

end

end Writer

/-- A written value is printable ASCII. -/
theorem plain_write (v : Json) : ∀ c ∈ v.write.toList, Text.isPlain c = true := by
  rw [Json.write, String.toList_ofList]
  exact Writer.isPlain_of_mem_value v

theorem newline_notMem_write (v : Json) : '\n' ∉ v.write.toList := fun h =>
  absurd (plain_write v _ h) (by decide)

theorem newline_notMem_literal (s : String) : '\n' ∉ (literal s).toList :=
  newline_notMem_write (.str s)

/-- Whatever literal stands in a line, it stays one line. -/
theorem newline_notMem_line {before after : String} (s : String) (hbefore : '\n' ∉ before.toList)
    (hafter : '\n' ∉ after.toList) : '\n' ∉ (before ++ literal s ++ after).toList := by
  rw [String.toList_append, String.toList_append, List.mem_append, List.mem_append, not_or, not_or]
  exact ⟨⟨hbefore, newline_notMem_literal s⟩, hafter⟩

/-- A literal is read as its string. -/
theorem parse_literal (b : Bounds) (s : String) : parse b (literal s) = .ok (.str s) :=
  parse_write (v := .str s) (.str s) (fits_str b s)

end Json

/-! ### Lines -/

namespace Text

/-- Lines that hold no line end are found again before what stands behind the last of their line ends. -/
theorem splitOn_lines {ls : List (List Char)} (h : ∀ l ∈ ls, '\n' ∉ l) (rest : List Char) :
    (ls.flatMap (· ++ ['\n']) ++ rest).splitOn '\n' = ls ++ rest.splitOn '\n' := by
  induction ls with
  | nil => rfl
  | cons l ls ih =>
    obtain ⟨hl, hls⟩ := List.forall_mem_cons.1 h
    rw [List.flatMap_cons, List.append_assoc, List.append_assoc, List.singleton_append,
      List.splitOn_append_cons_self_of_not_mem hl, ih hls, List.cons_append]

theorem pieces_lines_append {ls : List String} (h : ∀ l ∈ ls, '\n' ∉ l.toList) (rest : String) :
    pieces '\n' (String.join (ls.map (· ++ "\n")) ++ rest) = ls ++ pieces '\n' rest := by
  have hlists : (String.join (ls.map (· ++ "\n"))).toList = (ls.map String.toList).flatMap (· ++ ['\n']) := by
    simp [String.toList_join, List.flatMap_map]
  have hself : String.ofList ∘ String.toList = id := funext fun s => String.ofList_toList
  unfold pieces
  rw [String.toList_append, hlists, splitOn_lines (by simpa using h), List.map_append, List.map_map, hself,
    List.map_id]

theorem pieces_lines {ls : List String} (h : ∀ l ∈ ls, '\n' ∉ l.toList) :
    pieces '\n' (String.join (ls.map (· ++ "\n"))) = ls ++ [""] := by
  have hempty := pieces_lines_append h ""
  rwa [String.append_empty] at hempty

end Text

end Bundler
