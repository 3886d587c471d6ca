/-!
# Searching and splitting

`occurs pat cs` says that `pat` stands somewhere in `cs` (`occurs_iff`); `firstAt f` tries `f` at every
place of a text, from left to right.
-/

namespace Bundler.Text

/-- `pat` stands somewhere in the text. -/
def occurs (pat : List Char) : List Char → Bool
  | [] => pat.isEmpty
  | c :: cs => pat.isPrefixOf (c :: cs) || occurs pat cs

theorem occurs_iff {pat : List Char} : ∀ {cs : List Char}, occurs pat cs = true ↔ pat <:+: cs
  | [] => by simp [occurs]
  | c :: cs => by simp [occurs, @occurs_iff pat cs, List.infix_cons_iff]

/-- Some marker of the list stands in the text. -/
def containsAny (text : String) (markers : List String) : Bool :=
  markers.any fun m => occurs m.toList text.toList

theorem containsAny_iff {text : String} {markers : List String} :
    containsAny text markers = true ↔ ∃ m ∈ markers, m.toList <:+: text.toList := by
  simp only [containsAny, List.any_eq_true, occurs_iff]

/-- What follows `pat`, where the text begins with it. -/
def after? (pat cs : List Char) : Option (List Char) :=
  if pat.isPrefixOf cs then some (cs.drop pat.length) else none

theorem after?_eq_some_iff {pat cs rest : List Char} : after? pat cs = some rest ↔ cs = pat ++ rest := by
  unfold after?
  constructor
  · intro h
    split at h
    · next hp =>
      obtain ⟨t, rfl⟩ := List.isPrefixOf_iff_prefix.1 hp
      simp at h
      rw [h]
    · simp at h
  · rintro rfl
    simp

/-- The first answer of `f` at any place of the text, from left to right. -/
def firstAt (f : List Char → Option α) : List Char → Option α
  | [] => f []
  | c :: cs => (f (c :: cs)).or (firstAt f cs)

/-- The pieces of a string between separators; there is always at least one. -/
def pieces (sep : Char) (s : String) : List String :=
  (s.toList.splitOn sep).map String.ofList

/-- The last `n` characters. -/
def lastChars (n : Nat) (cs : List Char) : List Char :=
  cs.drop (cs.length - n)

end Bundler.Text
