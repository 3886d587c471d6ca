import Mathlib.Order.Nat
import Bundler.Report.Rule

/-!
# What evidence weighs

A rule looks for what is there and never for what isn't, so that a rule that holds of some evidence holds of more
(`Condition.holds_of_within`). The rules of the table stand in falling order of their types, and so the first one that
holds has the greatest type of all that do (`Rule.le_typeOf`). Hence the type of a failure rises with what is said of it
(`Rule.table_weighs`).
-/

namespace Bundler

namespace ErrorType

theorem rank_injective : Function.Injective rank := by
  intro a b h
  cases a <;> cases b <;> first | rfl | nomatch h

/-- A type is greater the more it says. -/
instance : PartialOrder ErrorType :=
  PartialOrder.lift rank rank_injective

instance (a b : ErrorType) : Decidable (a ≤ b) :=
  inferInstanceAs (Decidable (a.rank ≤ b.rank))

theorem unknown_le (t : ErrorType) : unknown ≤ t :=
  Nat.zero_le t.rank

example : unknown < build ∧ build < network ∧ network < resolve ∧ resolve < malformed := by decide

end ErrorType

open Text

theorem Text.containsAny_mono {a b : String} {markers : List String} (h : a.toList <:+: b.toList)
    (ha : containsAny a markers = true) : containsAny b markers = true := by
  obtain ⟨m, hm, hfound⟩ := containsAny_iff.1 ha
  exact containsAny_iff.2 ⟨m, hm, hfound.trans h⟩

/-- What some evidence says other evidence says too, perhaps with more around it. -/
structure Evidence.Within (e e' : Evidence) : Prop where
  message : e.message.toList <:+: e'.message.toList
  diagnostics : ∀ d ∈ e.diagnostics, ∃ d' ∈ e'.diagnostics, d.toList <:+: d'.toList

variable {e e' : Evidence}

theorem Evidence.Within.any_diagnostics (h : e.Within e') {markers : List String}
    (hany : e.diagnostics.any (containsAny · markers) = true) : e'.diagnostics.any (containsAny · markers) = true := by
  obtain ⟨d, hd, hfound⟩ := List.any_eq_true.1 hany
  obtain ⟨d', hd', hinside⟩ := h.diagnostics d hd
  exact List.any_eq_true.2 ⟨d', hd', containsAny_mono hinside hfound⟩

theorem Condition.holds_hasDiagnostics : hasDiagnostics.holds e = true ↔ e.diagnostics ≠ [] := by
  simp [Condition.holds]

/-- What holds of some evidence holds of more. -/
theorem Condition.holds_of_within (h : e.Within e') {c : Condition} (hc : c.holds e = true) : c.holds e' = true := by
  cases c with
  | diagnostic markers => exact h.any_diagnostics hc
  | anyText markers =>
    rcases Bool.or_eq_true_iff.1 hc with hmessage | hdiagnostics
    · exact Bool.or_eq_true_iff.2 (.inl (containsAny_mono h.message hmessage))
    · exact Bool.or_eq_true_iff.2 (.inr (h.any_diagnostics hdiagnostics))
  | message markers => exact containsAny_mono h.message hc
  | hasDiagnostics =>
    obtain ⟨d, hd⟩ := List.exists_mem_of_ne_nil _ (holds_hasDiagnostics.1 hc)
    obtain ⟨d', hd', -⟩ := h.diagnostics d hd
    exact holds_hasDiagnostics.2 (List.ne_nil_of_mem hd')
  | always => rfl

namespace Rule

/-- No rule says more than the ones before it. -/
def Falling (rules : List Rule) : Prop :=
  rules.Pairwise fun r s => s.type ≤ r.type

instance (rules : List Rule) : Decidable (Falling rules) :=
  inferInstanceAs (Decidable (rules.Pairwise _))

theorem falling_table : Falling table := by decide

variable {rules : List Rule}

theorem typeOf_eq_unknown_or (rules : List Rule) (e : Evidence) :
    typeOf rules e = .unknown ∨ ∃ r ∈ rules, r.condition.holds e = true ∧ typeOf rules e = r.type := by
  unfold typeOf
  cases hfind : rules.find? fun r => r.condition.holds e with
  | none => exact .inl rfl
  | some r =>
    have hholds := List.find?_some hfind
    exact .inr ⟨r, List.mem_of_find?_eq_some hfind, hholds, rfl⟩

/-- No rule that holds says more than the first one that does. -/
theorem le_typeOf (hrules : Falling rules) {r : Rule} (hr : r ∈ rules) (hholds : r.condition.holds e = true) :
    r.type ≤ typeOf rules e := by
  induction rules with
  | nil => nomatch hr
  | cons first rest ih =>
    obtain ⟨hfirst, hrest⟩ := List.pairwise_cons.1 hrules
    unfold typeOf
    rw [List.find?_cons]
    cases hcondition : first.condition.holds e with
    | true =>
      rcases List.mem_cons.1 hr with rfl | hr
      · exact le_refl r.type
      · exact hfirst r hr
    | false =>
      rcases List.mem_cons.1 hr with rfl | hr
      · simp [hholds] at hcondition
      · exact ih hrest hr

theorem typeOf_le_of_within (hrules : Falling rules) (h : e.Within e') : typeOf rules e ≤ typeOf rules e' := by
  rcases typeOf_eq_unknown_or rules e with hunknown | ⟨r, hr, hholds, htype⟩
  · rw [hunknown]
    exact ErrorType.unknown_le _
  · rw [htype]
    exact le_typeOf hrules hr (Condition.holds_of_within h hholds)

/-- The type of a failure is only raised by what is put around its texts and by diagnostics that are added to its own.
It's the same whatever the order of the diagnostics and however often each is given, and with one of them it's known. -/
theorem table_weighs :
    (∀ e e' : Evidence, e.Within e' → typeOf table e ≤ typeOf table e') ∧
    (∀ (m : String) (ds ds' : List String), (∀ d, d ∈ ds ↔ d ∈ ds') → typeOf table ⟨m, ds⟩ = typeOf table ⟨m, ds'⟩) ∧
    (∀ (m before after : String) (around : String → String × String) (ds earlier later : List String),
      typeOf table ⟨m, ds⟩ ≤ typeOf table
        ⟨before ++ m ++ after, earlier ++ ds.map (fun d => (around d).1 ++ d ++ (around d).2) ++ later⟩) ∧
    ∀ e : Evidence, e.diagnostics ≠ [] → typeOf table e ≠ .unknown := by
  have hmono : ∀ e e' : Evidence, e.Within e' → typeOf table e ≤ typeOf table e' := fun _ _ =>
    typeOf_le_of_within falling_table
  have hsubset : ∀ (m : String) {ds ds' : List String}, ds ⊆ ds' → typeOf table ⟨m, ds⟩ ≤ typeOf table ⟨m, ds'⟩ :=
    fun m _ _ hds => hmono _ _ ⟨List.infix_refl _, fun d hd => ⟨d, hds hd, List.infix_refl _⟩⟩
  have hinside : ∀ before m after : String, m.toList <:+: (before ++ m ++ after).toList := fun before m after =>
    ⟨before.toList, after.toList, by simp⟩
  refine ⟨hmono, fun m ds ds' hds => ?_, fun m before after around ds earlier later => ?_, fun e hd hunknown => ?_⟩
  · exact le_antisymm (hsubset m fun d => (hds d).1) (hsubset m fun d => (hds d).2)
  · refine hmono _ _ ⟨hinside before m after, fun d hd => ?_⟩
    exact ⟨_, List.mem_append_left _ (List.mem_append_right _ (List.mem_map_of_mem hd)), hinside _ d _⟩
  · have hbuild : ErrorType.build ≤ typeOf table e :=
      le_typeOf (r := ⟨.build, .hasDiagnostics, "diagnostics"⟩) falling_table (by simp [table])
        (Condition.holds_hasDiagnostics.2 hd)
    rw [hunknown] at hbuild
    exact absurd hbuild (by decide)

/-- An error of the compiler becomes one of resolution, and that one of syntax, as more is said. -/
theorem table_weighs_imports :
    typeOf table ⟨"Build failed", ["2 errors"]⟩ = .build ∧
    typeOf table ⟨"Build failed", ["2 errors: Could not resolve \"a\""]⟩ = .resolve ∧
    typeOf table ⟨"Build failed", ["2 errors"]⟩ ≤ typeOf table ⟨"Build failed", ["2 errors: Could not resolve \"a\""]⟩ ∧
    typeOf table ⟨"Build failed", ["2 errors: Could not resolve \"a\"", "Expected \";\""]⟩ = .malformed ∧
    typeOf table ⟨"Build failed", ["2 errors: Could not resolve \"a\"", "Expected \";\""]⟩ =
      typeOf table ⟨"Build failed", ["Expected \";\"", "2 errors: Could not resolve \"a\"", "Expected \";\""]⟩ ∧
    typeOf table ⟨"Build failed", ["2 errors"]⟩ ≠ .unknown := by
  obtain ⟨hmono, hsame, -, hknown⟩ := table_weighs
  refine ⟨by decide, by decide, hmono _ _ ⟨?_, ?_⟩, by decide, hsame _ _ _ fun d => ?_, hknown _ (by decide)⟩
  · exact List.infix_refl _
  · simp only [List.mem_singleton, forall_eq, exists_eq_left]
    exact ⟨[], ": Could not resolve \"a\"".toList, by decide⟩
  · simp only [List.mem_cons, List.not_mem_nil, or_false]
    exact ⟨fun h => h.elim (.inr ∘ .inl) .inl, fun h => h.elim .inr fun h => h.elim .inl .inr⟩

end Rule

end Bundler
