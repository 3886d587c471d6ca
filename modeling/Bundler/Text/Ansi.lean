/-!
# Control sequences of terminals

A text that doesn't go to a terminal is written without control sequences: ESC, `[`, any digits, `;` and
`?`, and a letter. How they are taken out isn't ours to say; `Stripping` says what is relied on, that the text is read
once from left to right and loses just its control sequences (`Cleared`). `strip` does so.
-/

namespace Bundler.Text.Ansi

def escape : Char := '\x1b'

def isParameter (c : Char) : Bool :=
  c == ';' || c == '?' || c.isDigit

def IsSequence (cs : List Char) : Prop :=
  ∃ ps c, (∀ p ∈ ps, isParameter p = true) ∧ c.isAlpha = true ∧ cs = escape :: '[' :: (ps ++ [c])

def Begins (cs : List Char) : Prop :=
  ∃ s, IsSequence s ∧ s <+: cs

def Holds (cs : List Char) : Prop :=
  ∃ s, IsSequence s ∧ s <:+: cs

/-- The second text is the first one, read from left to right, without its control sequences. -/
inductive Cleared : List Char → List Char → Prop where
  | nil : Cleared [] []
  | drop {s cs ds : List Char} (hs : IsSequence s) (h : Cleared cs ds) : Cleared (s ++ cs) ds
  | keep {c : Char} {cs ds : List Char} (hno : ¬ Begins (c :: cs)) (h : Cleared cs ds) : Cleared (c :: cs) (c :: ds)

/-- How the control sequences of a text are taken out. -/
structure Stripping where
  strip : List Char → List Char
  cleared : ∀ cs, Cleared cs (strip cs)

/-- The text without control sequences; `held` is the beginning of one, in reverse, which stays if it turns
out to be none. -/
def stripFrom (held : List Char) : List Char → List Char
  | [] => held.reverse
  | c :: cs =>
    match held with
    | [] => if c = escape then stripFrom [escape] cs else c :: stripFrom [] cs
    | [e] =>
      if c = '[' then stripFrom ['[', e] cs
      else if c = escape then e :: stripFrom [escape] cs
      else e :: c :: stripFrom [] cs
    | _ =>
      if isParameter c then stripFrom (c :: held) cs
      else if c.isAlpha then stripFrom [] cs
      else held.reverse ++ if c = escape then stripFrom [escape] cs else c :: stripFrom [] cs

/-! ### What is taken out -/

variable {c : Char} {ps cs ds rest : List Char}

theorem isAlpha_of_isParameter (h : isParameter c = true) : c.isAlpha = false := by
  simp only [isParameter, Bool.or_eq_true, beq_iff_eq] at h
  rcases h with (rfl | rfl) | h
  · rfl
  · rfl
  · simp [Char.isDigit, UInt32.le_iff_toNat_le] at h
    have halpha : c.isAlpha = (decide (c.val ≥ 'A'.val ∧ c.val ≤ 'Z'.val) ||
      (decide (c.val ≥ 'a'.val) && decide (c.val ≤ 'z'.val))) := rfl
    rw [halpha]
    simp [UInt32.le_iff_toNat_le]
    omega

theorem Begins.head (h : Begins (c :: cs)) : c = escape := by
  obtain ⟨s, ⟨ps, d, -, -, rfl⟩, hs⟩ := h
  exact (List.cons_prefix_cons.1 hs).1.symm

theorem Begins.second (h : Begins (escape :: c :: cs)) : c = '[' := by
  obtain ⟨s, ⟨ps, d, -, -, rfl⟩, hs⟩ := h
  exact (List.cons_prefix_cons.1 (List.cons_prefix_cons.1 hs).2).1.symm

/-- Parameters are followed by a parameter or a letter. -/
theorem Begins.behind (hps : ∀ p ∈ ps, isParameter p = true) (h : Begins (escape :: '[' :: (ps ++ rest))) :
    ∃ c ∈ rest.head?, isParameter c = true ∨ c.isAlpha = true := by
  obtain ⟨s, ⟨qs, d, hqs, hd, rfl⟩, hs⟩ := h
  replace hs : qs ++ [d] <+: ps ++ rest := (List.cons_prefix_cons.1 (List.cons_prefix_cons.1 hs).2).2
  -- the sequence's letter can't be one of the parameters, so it comes after all of them
  induction ps generalizing qs with
  | nil =>
    obtain ⟨more, rfl⟩ := hs
    cases qs with
    | nil => exact ⟨d, rfl, .inr hd⟩
    | cons q qs => exact ⟨q, rfl, .inl (hqs q (List.mem_cons_self ..))⟩
  | cons p ps ih =>
    cases qs with
    | nil =>
      obtain rfl : d = p := (List.cons_prefix_cons.1 hs).1
      rw [isAlpha_of_isParameter (hps d (List.mem_cons_self ..))] at hd
      cases hd
    | cons q qs =>
      exact ih (fun p hp => hps p (List.mem_cons_of_mem _ hp)) qs (fun q hq => hqs q (List.mem_cons_of_mem _ hq))
        (List.cons_prefix_cons.1 hs).2

namespace Cleared

/-- What holds no escape stays. -/
theorem plain (has : escape ∉ ps) (h : Cleared cs ds) : Cleared (ps ++ cs) (ps ++ ds) := by
  induction ps with
  | nil => exact h
  | cons p ps ih =>
    rw [List.mem_cons, not_or] at has
    exact .keep (fun hb => has.1 hb.head.symm) (ih has.2)

end Cleared

theorem escape_notMem_params (hps : ∀ p ∈ ps, isParameter p = true) : escape ∉ '[' :: ps := by
  intro h
  rcases List.mem_cons.1 h with h | h
  · cases h
  · exact absurd (hps _ h) (by decide)

/-- The beginning of a control sequence, as far as it has been read, in reverse. -/
inductive Begun : List Char → Prop where
  | nothing : Begun []
  | escape : Begun [escape]
  | params {ps : List Char} (hps : ∀ p ∈ ps, isParameter p = true) : Begun (ps.reverse ++ ['[', Ansi.escape])

/-- What was held back stays if there is no sequence. -/
theorem cleared_held {held : List Char} (hheld : Begun held) (hno : ¬ Begins (held.reverse ++ cs)) (h : Cleared cs ds) :
    Cleared (held.reverse ++ cs) (held.reverse ++ ds) := by
  cases hheld with
  | nothing => exact h
  | escape => exact .keep hno h
  | @params ps hps =>
    simp only [List.reverse_append, List.reverse_cons, List.reverse_nil, List.nil_append, List.reverse_reverse,
      List.cons_append] at hno ⊢
    exact .keep hno (.plain (escape_notMem_params hps) h)

theorem Begun.not_begins {held : List Char} (hheld : Begun held) : ¬ Begins held.reverse := by
  intro hb
  cases hheld with
  | nothing =>
    obtain ⟨s, ⟨ps, d, -, -, rfl⟩, hs⟩ := hb
    cases List.prefix_nil.1 hs
  | escape =>
    obtain ⟨s, ⟨ps, d, -, -, rfl⟩, hs⟩ := hb
    cases List.prefix_nil.1 (List.cons_prefix_cons.1 hs).2
  | @params ps hps =>
    rw [List.reverse_append, List.reverse_reverse, ← List.append_nil ps] at hb
    obtain ⟨c, hc, -⟩ := Begins.behind hps hb
    cases hc

/-- What is read behind the bracket of a sequence. -/
theorem stripFrom_params (qs : List Char) (c : Char) (cs : List Char) :
    stripFrom (qs ++ ['[', escape]) (c :: cs) =
      if isParameter c then stripFrom (c :: (qs ++ ['[', escape])) cs
      else if c.isAlpha then stripFrom [] cs
      else (qs ++ ['[', escape]).reverse ++ if c = escape then stripFrom [escape] cs else c :: stripFrom [] cs := by
  cases qs with
  | nil => rfl
  | cons q qs => cases qs <;> rfl

theorem cleared_stripFrom {held : List Char} (hheld : Begun held) :
    Cleared (held.reverse ++ cs) (stripFrom held cs) := by
  induction cs generalizing held with
  | nil =>
    have hno : ¬ Begins (held.reverse ++ []) := by
      rw [List.append_nil]
      exact hheld.not_begins
    have hend := cleared_held hheld hno .nil
    rwa [show stripFrom held [] = held.reverse ++ [] from (List.append_nil _).symm]
  | cons c cs ih =>
    -- a character that doesn't go on with what is held back may yet begin a sequence of its own
    have hnext : Cleared (c :: cs) (if c = escape then stripFrom [escape] cs else c :: stripFrom [] cs) := by
      split
      · next hc =>
        rw [hc]
        exact ih .escape
      · next hc => exact .keep (fun hb => hc hb.head) (ih .nothing)
    cases hheld with
    | nothing => exact hnext
    | escape =>
      show Cleared (escape :: c :: cs) (if c = '[' then stripFrom ['[', escape] cs
        else if c = escape then escape :: stripFrom [escape] cs else escape :: c :: stripFrom [] cs)
      split
      · next hc =>
        rw [hc]
        exact ih (.params (List.forall_mem_nil _))
      · next hc =>
        rw [← apply_ite (List.cons escape)]
        exact .keep (fun hb => hc hb.second) hnext
    | @params ps hps =>
      rw [stripFrom_params]
      split
      · next hc =>
        have hmore : Begun ((ps ++ [c]).reverse ++ ['[', escape]) :=
          .params (List.forall_mem_append.2 ⟨hps, List.forall_mem_singleton.2 hc⟩)
        have hread := ih hmore
        simpa using hread
      · next hparameter =>
        split
        · next halpha =>
          have hs : IsSequence (escape :: '[' :: (ps ++ [c])) := ⟨ps, c, hps, halpha, rfl⟩
          have hread := Cleared.drop hs (ih .nothing)
          simpa using hread
        · next halpha =>
          refine cleared_held (.params hps) (fun hb => ?_) hnext
          rw [List.reverse_append, List.reverse_reverse] at hb
          obtain ⟨d, hd, hfits⟩ := Begins.behind hps hb
          cases hd
          exact hfits.elim hparameter halpha

/-- The text is read character by character. -/
def Stripping.standard : Stripping where
  strip := stripFrom []
  cleared _ := cleared_stripFrom .nothing

end Bundler.Text.Ansi
