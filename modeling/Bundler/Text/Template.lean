/-!
# Templates

A template is a text with slots, which are names in capitals between double underscores. Its pieces are found in one
pass from left to right (`Template.pieces`), and `Template.fill?` puts a value in the place of each slot. A value is
never looked at again, so it may well read like a slot. The pieces of a line are the same whatever comes after the
line (`pieces_append_newline`).
-/

namespace Bundler.Text.Template

def isSlotChar (c : Char) : Bool :=
  c == '_' || c.isUpper

/-- Two underscores, then capitals and underscores, at least one, and two underscores. -/
def isSlot (cs : List Char) : Bool :=
  5 ≤ cs.length && cs.all isSlotChar && ['_', '_'].isPrefixOf cs && ['_', '_'].isSuffixOf cs

/-- The longest of the first `n` beginnings of the text with a property. -/
def longest? (p : List Char → Bool) (cs : List Char) : Nat → Option (List Char)
  | 0 => none
  | n + 1 => if p (cs.take (n + 1)) then some (cs.take (n + 1)) else longest? p cs n

/-- The slot at the very front of the text. -/
def slot? (cs : List Char) : Option (List Char) :=
  longest? isSlot cs (cs.takeWhile isSlotChar).length

inductive Piece where
  | char (c : Char)
  | slot (name : List Char)
  deriving DecidableEq

/-- The pieces behind the first `n` characters, which are those of a slot. -/
def piecesFrom : Nat → List Char → List Piece
  | _, [] => []
  | n + 1, _ :: cs => piecesFrom n cs
  | 0, c :: cs =>
    match slot? (c :: cs) with
    | some name => .slot name :: piecesFrom (name.length - 1) cs
    | none => .char c :: piecesFrom 0 cs

def pieces (cs : List Char) : List Piece :=
  piecesFrom 0 cs

variable (value? : List Char → Option (List Char))

/-- The pieces with the values of their slots; none if a slot has no value. -/
def filled? : List Piece → Option (List Char)
  | [] => some []
  | .char c :: ps => (filled? ps).map (c :: ·)
  | .slot name :: ps => do return (← value? name) ++ (← filled? ps)

def fill? (cs : List Char) : Option (List Char) :=
  filled? value? (pieces cs)

/-! ### Lines -/

theorem longest?_append (p : List Char → Bool) {cs : List Char} (rest : List Char) {n : Nat} (hn : n ≤ cs.length) :
    longest? p (cs ++ rest) n = longest? p cs n := by
  induction n with
  | zero => rfl
  | succ n ih => rw [longest?, longest?, List.take_append_of_le_length hn, ih (Nat.le_of_succ_le hn)]

theorem length_le_of_longest? {p : List Char → Bool} {cs name : List Char} {n : Nat} (h : longest? p cs n = some name) :
    name.length ≤ cs.length := by
  induction n with
  | zero => cases h
  | succ n ih =>
    rw [longest?] at h
    split at h
    · cases h
      rw [List.length_take]
      exact Nat.min_le_right ..
    · exact ih h

theorem takeWhile_append_newline (cs rest : List Char) :
    (cs ++ '\n' :: rest).takeWhile isSlotChar = cs.takeWhile isSlotChar := by
  induction cs with
  | nil => rfl
  | cons c cs ih => rw [List.cons_append, List.takeWhile_cons, List.takeWhile_cons, ih]

/-- A slot ends with its line. -/
theorem slot?_append_newline (cs rest : List Char) : slot? (cs ++ '\n' :: rest) = slot? cs := by
  unfold slot?
  rw [takeWhile_append_newline]
  exact longest?_append _ _ (List.takeWhile_prefix _).length_le

theorem piecesFrom_append_newline {n : Nat} {cs : List Char} (hn : n ≤ cs.length) (rest : List Char) :
    piecesFrom n (cs ++ '\n' :: rest) = piecesFrom n cs ++ .char '\n' :: pieces rest := by
  induction cs generalizing n with
  | nil =>
    obtain rfl : n = 0 := Nat.le_zero.1 hn
    rfl
  | cons c cs ih =>
    cases n with
    | succ n => exact ih (Nat.le_of_succ_le_succ hn)
    | zero =>
      rw [List.cons_append, piecesFrom, piecesFrom, ← List.cons_append, slot?_append_newline]
      cases hslot : slot? (c :: cs) with
      | none => exact congrArg _ (ih (Nat.zero_le _))
      | some name =>
        have hlength := length_le_of_longest? hslot
        exact congrArg _ (ih (by rw [List.length_cons] at hlength; omega))

theorem pieces_append_newline (cs rest : List Char) :
    pieces (cs ++ '\n' :: rest) = pieces cs ++ .char '\n' :: pieces rest :=
  piecesFrom_append_newline (Nat.zero_le _) rest

variable {value?}

theorem isSome_filled?_iff {ps : List Piece} :
    (filled? value? ps).isSome = true ↔ ∀ name, .slot name ∈ ps → (value? name).isSome = true := by
  induction ps with
  | nil => simp [filled?]
  | cons p ps ih =>
    cases p with
    | char c => simp [filled?, ih]
    | slot name =>
      cases hname : value? name with
      | none => simp [filled?, hname]
      | some value =>
        cases hps : filled? value? ps <;> simp_all [filled?]

end Bundler.Text.Template
