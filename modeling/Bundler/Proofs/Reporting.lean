import Bundler.Proofs.Running

/-!
# A run reports every failure

What the steps of a run come to (`Run.outcome`) decides the rest of it: after a success nothing is left to do, and
a halt is reported. For the report the failure has to have a type, a message and the message a first line, and each
of these can be missing: a failure may carry a type that isn't one, and an empty text has no lines at all. Since the
steps only fail by what can be reported, none is missing (`Run.run_reports`). Nor is a report ever too large to be
written: its diagnostics are parts of an answer that was read, and what the report adds around them is no more than
what stood around them in the answer (`BuildResult.Reportable.fits_document`).
-/

namespace Bundler

namespace Text

/-- The lines of a text, CR LF being one boundary. What follows the last boundary counts if it isn't empty. -/
def lines : List Char → List (List Char)
  | [] => []
  | '\r' :: '\n' :: cs => [] :: lines cs
  | c :: cs =>
    if isLineBreak c then [] :: lines cs
    else
      match lines cs with
      | [] => [[c]]
      | l :: ls => (c :: l) :: ls

theorem lines_of_lineBreak {c : Char} (hc : isLineBreak c = true) (cs : List Char) :
    ∃ rest, lines (c :: cs) = [] :: rest := by
  unfold lines
  split
  · next h => cases h
  · exact ⟨_, rfl⟩
  · next h =>
    cases h
    rw [if_pos hc]
    exact ⟨_, rfl⟩

/-- Only the empty text has no lines; the headline is the first line of any other. -/
theorem exists_lines_eq : ∀ (c : Char) (cs : List Char),
    ∃ rest, lines (c :: cs) = (c :: cs).takeWhile (!isLineBreak ·) :: rest := by
  intro c cs
  induction cs generalizing c with
  | nil =>
    by_cases hc : isLineBreak c = true
    · obtain ⟨rest, h⟩ := lines_of_lineBreak hc []
      exact ⟨rest, by simpa [hc] using h⟩
    · exact ⟨[], by simp [lines, hc]⟩
  | cons d cs ih =>
    by_cases hc : isLineBreak c = true
    · obtain ⟨rest, h⟩ := lines_of_lineBreak hc (d :: cs)
      exact ⟨rest, by simpa [hc] using h⟩
    · obtain ⟨rest, h⟩ := ih d
      have hcr : c ≠ '\r' := by
        rintro rfl
        exact hc (by decide)
      refine ⟨rest, ?_⟩
      rw [lines, if_neg hc, h]
      · simp [hc]
      · exact fun _ hcr' => absurd hcr' hcr

theorem lines_eq_headline {s : String} (hs : s ≠ "") : ∃ rest, lines s.toList = (headline s).toList :: rest := by
  unfold headline
  rw [String.toList_ofList]
  cases h : s.toList with
  | nil => exact absurd (String.toList_eq_nil_iff.1 h) hs
  | cons c cs => exact exists_lines_eq c cs

end Text

theorem ErrorType.name_mem_names (t : ErrorType) : t.name ∈ names :=
  List.mem_map_of_mem (mem_all t)

/-- A report says what the failure says. -/
theorem Envelope.of_ofFailure {b : Json.Bounds} {rules : List Rule} {f : Failure} {e : Envelope}
    (h : ofFailure b rules f = .ok e) : e.message = f.report ∧ e.diagnostics = f.diagnostics := by
  unfold ofFailure at h
  split at h
  · next t _ =>
    unfold ofJson at h
    split at h
    · cases h
      exact ⟨rfl, rfl⟩
    · cases hshown : t.inspectWithin b <;> rw [hshown] at h <;> cases h
  · cases h
    exact ⟨rfl, rfl⟩

namespace Run

/-- What the steps come to for a component at a path given as a value of any kind. -/
def outcome (s : Settings) : Json → Host → Except Halt (String × Bool) × Host
  | .str entry, h => (steps s (Path.ofString entry)).run h
  | v, h => (.error ⟨.mismatch (.notPath v.typeName), .init⟩, h)

theorem run_run (s : Settings) (entry : Path) (h : Host) : (run s entry).run h =
    match (steps s entry).run h with
    | (.ok (script, styled), h₁) => (.ok (.success script styled),
        { h₁ with log := h₁.log ++ [⟨.debug, source, "Pipeline: " ++
          (if styled then Stage.styled else Stage.unstyled).name ++ " -> " ++ Stage.done.name⟩] })
    | (.error halt, h₁) => (halted halt).run h₁ := by
  have hlift : (ExceptT.lift (steps s entry).run : Action _).run h =
      (.ok ((steps s entry).run h).1, ((steps s entry).run h).2) := rfl
  unfold run
  rw [run_bind_of_ok hlift]
  rcases (steps s entry).run h with ⟨halt | ⟨script, styled⟩, h₁⟩ <;> rfl

/-- The run after its steps. -/
theorem runJson_run (s : Settings) (entry : Json) (h : Host) : (runJson s entry).run h =
    match outcome s entry h with
    | (.ok (script, styled), h₁) => (.ok (.success script styled),
        { h₁ with log := h₁.log ++ [⟨.debug, source, "Pipeline: " ++
          (if styled then Stage.styled else Stage.unstyled).name ++ " -> " ++ Stage.done.name⟩] })
    | (.error halt, h₁) => (halted halt).run h₁ := by
  cases entry with
  | str entry => exact run_run s (Path.ofString entry) h
  | _ => rfl

theorem reportable_of_steps {s : Settings} {entry : Path} {h h₁ : Host} {halt : Halt}
    (ho : (steps s entry).run h = (.error halt, h₁)) : halt.failure.Reportable h.limits :=
  ((wp_iff.1 (wp_steps s entry h)).2 halt h₁ ho).1

/-- What the steps of a run fail by can be reported. -/
theorem reportable_of_outcome {s : Settings} {entry : Json} {h h₁ : Host} {halt : Halt}
    (ho : outcome s entry h = (.error halt, h₁)) : halt.failure.Reportable h.limits := by
  cases entry with
  | str entry => exact reportable_of_steps ho
  | _ =>
    cases ho
    exact (Failure.plain_own rfl).reportable

/-- The halt is reported, with all that a report needs. -/
structure Reports (halt : Halt) (h₁ : Host) (r : BuildResult) (h' : Host) (e : Envelope) (first : String) : Prop where
  classified : ∀ b, Envelope.ofFailure b Rule.table halt.failure = .ok e
  typed : e.type.name ∈ ErrorType.names
  worded : e.message ≠ ""
  headed : ∃ rest, Text.lines e.message.toList = first.toList :: rest
  result : r = .failure e halt.stage
  logged : h' = { h₁ with log := h₁.log ++
    [⟨.error, source, "Bundle failed (" ++ e.type.name ++ ", stage=" ++ halt.stage.name ++ "): " ++ first⟩] }

theorem halted_reports {l : Limits} {halt : Halt} (hf : halt.failure.Reportable l) (h₁ : Host) : ∃ r h' e first,
    (halted halt).run h₁ = (.ok r, h') ∧ Reports halt h₁ r h' e first := by
  obtain ⟨e, he⟩ := ofFailure_of_reportable Rule.table hf
  have hmessage : e.message ≠ "" := (Envelope.of_ofFailure (he h₁.limits.toReport)).1 ▸ hf.worded
  refine ⟨_, _, e, _, ?_, he, e.type.name_mem_names, hmessage, Text.lines_eq_headline hmessage, rfl, rfl⟩
  have hclassified : (MonadExcept.ofExcept (Envelope.ofFailure h₁.limits.toReport Rule.table halt.failure) :
      Action Envelope).run h₁ = (.ok e, h₁) := by
    rw [he]
    rfl
  exact (run_bind_of_ok rfl).trans (run_bind_of_ok hclassified)

/-- After its steps a run writes to the log, and nothing else. -/
theorem runJson_same (s : Settings) (entry : Json) (h : Host) :
    ∃ r h', (runJson s entry).run h = (.ok r, h') ∧ (outcome s entry h).2.Same h' := by
  rw [runJson_run]
  rcases ho : outcome s entry h with ⟨halt | ⟨script, styled⟩, h₁⟩
  · obtain ⟨r, h', e, first, hr, hreports⟩ := halted_reports (reportable_of_outcome ho) h₁
    exact ⟨r, h', hr, hreports.logged ▸ .log h₁ _⟩
  · exact ⟨_, _, rfl, .log h₁ _⟩

/-- A run stays within its limits: they are at its end what they were. -/
theorem steps_limits (s : Settings) (entry : Path) (h : Host) : ((steps s entry).run h).2.limits = h.limits := by
  have hsteps := wp_steps s entry h
  unfold wp at hsteps
  split at hsteps
  · next hr =>
    obtain ⟨_, _, _, ht, -⟩ := hsteps
    rw [hr]
    exact ht.adds.limits
  · next hr =>
    obtain ⟨-, -, _, _, _, ht, -⟩ := hsteps
    rw [hr]
    exact ht.adds.limits

end Run

/-! ### What can be written -/

/-- A report takes two levels more than its diagnostics. -/
theorem Envelope.fits_toJson {digits : Option Nat} {levels : Nat} {e : Envelope}
    (hd : ∀ d ∈ e.diagnostics, d.toJson.Fits ⟨digits, levels⟩) : e.toJson.Fits ⟨digits, levels + 2⟩ := by
  refine .obj ?_
  simp only [List.forall_mem_cons]
  exact ⟨Json.fits_bool _ _, Json.fits_str _ _, Json.fits_str _ _, .arr (List.forall_mem_map.2 hd),
    List.forall_mem_nil _⟩

namespace BuildResult

/-- No object of a diagnostic has a key twice. -/
def Keyed : BuildResult → Prop
  | .success .. => True
  | .failure e _ => ∀ d ∈ e.diagnostics, d.toJson.Keyed

def Reportable (l : Limits) : BuildResult → Prop
  | .success .. => True
  | .failure e _ => ∀ d ∈ e.diagnostics, d.Reportable l

namespace Reportable

variable {l : Limits} {r : BuildResult}

theorem keyed (h : r.Reportable l) : r.Keyed := by
  cases r with
  | success => trivial
  | failure e stage => exact fun d hd => (h d hd).keyed

/-- The report fits wherever there are as many levels as an answer may have. -/
theorem fits_toJson {e : Envelope} {stage : Stage} (h : (failure e stage).Reportable l) {levels : Nat}
    (hlevels : ∀ p, l.reading p ≤ levels) : e.toJson.Fits ⟨l.digits, levels⟩ := by
  have hfour := Nat.le_trans (l.reads .discover) (hlevels .discover)
  obtain ⟨inner, rfl⟩ : ∃ m, levels = m + 2 := ⟨levels - 2, by omega⟩
  refine Envelope.fits_toJson fun d hd => ?_
  obtain ⟨p, hp⟩ := (h d hd).fits
  exact hp.mono rfl (Nat.sub_le_of_le_add (hlevels p))

theorem fits_document (h : r.Reportable l) : r.document.Fits l.toReport := by
  cases r with
  | success script styled =>
    have hfour := Nat.le_trans (l.reads .discover) (l.reports .discover)
    have hflat : (document (.success script styled)).Fits ⟨l.digits, 0 + 1⟩ := by
      refine .obj ?_
      simp only [List.forall_mem_cons]
      exact ⟨Json.fits_bool _ _, Json.fits_str _ _, List.forall_mem_nil _⟩
    exact hflat.mono rfl (by show 0 + 1 ≤ l.report; omega)
  | failure e stage => exact h.fits_toJson l.reports

theorem fits_event (h : r.Reportable l) : r.event.Fits l.toTell := by
  have hlevels := l.tells
  obtain ⟨inner, hinner⟩ : ∃ m, l.event = m + 1 := ⟨l.event - 1, by have := hlevels .discover; omega⟩
  have hbounds : l.toTell = ⟨l.digits, inner + 1⟩ := by rw [← hinner]; rfl
  rw [hbounds]
  cases r with
  | success script styled =>
    refine .obj ?_
    simp only [List.forall_mem_cons]
    exact ⟨Json.fits_str _ _, Json.fits_str _ _, List.forall_mem_nil _⟩
  | failure e stage =>
    have hreport : e.toJson.Fits ⟨l.digits, inner⟩ := h.fits_toJson fun p => by have := hlevels p; omega
    refine .obj ?_
    simp only [List.forall_mem_cons]
    exact ⟨Json.fits_str _ _, hreport, List.forall_mem_nil _⟩

end Reportable

end BuildResult

/-- A run has a result, whatever its steps come to, and the result can be written. After its steps it only writes to the
log. -/
theorem Run.run_result (s : Settings) (entry : Path) (h : Host) : ∃ r h', (run s entry).run h = (.ok r, h') ∧
    r.Reportable h.limits ∧ h'.limits = h.limits ∧ ((steps s entry).run h).2.Same h' := by
  have hlimits : ∀ {h'}, ((steps s entry).run h).2.Same h' → h'.limits = h.limits := by
    rintro h' ⟨lines, rfl⟩
    exact steps_limits s entry h
  obtain ⟨r, h', hr, hreportable, hsame⟩ : ∃ r h', (run s entry).run h = (.ok r, h') ∧ r.Reportable h.limits ∧
      ((steps s entry).run h).2.Same h' := by
    rw [run_run]
    rcases ho : (steps s entry).run h with ⟨halt | ⟨script, styled⟩, h₁⟩
    · have hreportable := reportable_of_steps ho
      obtain ⟨r, h', e, first, hr, hreports⟩ := halted_reports hreportable h₁
      refine ⟨r, h', hr, ?_, ?_⟩
      · rw [hreports.result]
        show ∀ d ∈ e.diagnostics, d.Reportable h.limits
        rw [(Envelope.of_ofFailure (hreports.classified h.limits.toReport)).2]
        exact hreportable.told
      · rw [hreports.logged]
        exact .log h₁ _
    · exact ⟨_, _, rfl, trivial, .log h₁ _⟩
  exact ⟨r, h', hr, hreportable, hlimits hsame, hsame⟩

end Bundler
