import Bundler.Proofs.Answering
import Bundler.Proofs.Quiet
import Bundler.Proofs.Wording

/-!
# Steps that call a program

A call that was made stands in the host's record with the moment at which it was made, so that what came of it
can be read off the record (`Call.result`). `Host.Called` says what a call changes, and `wp_call` and `wp_runPass`
that there is nothing else to it. What an answer says of errors is repeated in the failure that it comes to, and
whatever can be read of it can be reported (`Answer.reportable_read`).
-/

namespace Bundler

namespace Call

theorem plain_refused (c : Call) (e : Errno) (files : List String) : (c.refused e files).Plain := by
  unfold refused
  dsimp only
  split
  · exact Failure.plain_bundle rfl (by simp)
  · exact Failure.plain_own rfl

theorem plain_failure (c : Call) : ∀ why, (c.failure why).Plain
  | .timeout => Failure.plain_own rfl
  | .missing => c.plain_refused .noEntry _
  | .denied => c.plain_refused .denied _
  | .noMemory => c.plain_refused .noMemory []

theorem plain_effects (c : Call) (status : Int) (changes : List Change) (installs : Installs) :
    Change.Plain (c.effects status changes installs) := by
  unfold effects
  split
  · exact fun _ => trivial
  · exact (Change.plain_applyAll _ _).bind fun _ => .forM (fun _ => Change.plain_makeDirs _ _) _

theorem plain_result (c : Call) : Failure.PlainIn c.result.1 := by
  unfold result
  split
  · exact .error (c.plain_failure _)
  · next status _ _ changes installs _ =>
    have hplain := (wp_iff.1 (c.plain_effects status changes installs c.moment.tree)).2
    split
    · exact .ok _
    · exact .error (c.plain_refused _ _)
    · next f t _ hr => exact .error (hplain f t hr)

/-- A program of a pass leaves the tree as it is. -/
theorem tree_result_of_pass {c : Call} {p : Pass} (hc : c.kind = .pass p) : c.result.2 = c.moment.tree := by
  have heffects : ∀ status changes installs, c.effects status changes installs = pure () := by
    intro status changes installs
    unfold effects
    rw [hc]
  unfold result
  split
  · rfl
  · rw [heffects]
    rfl

/-- The call comes to its end, and with success. -/
def Succeeds (c : Call) : Prop :=
  ∃ e, c.result.1 = .ok e ∧ e.succeeded = true

theorem succeeds_iff_of_ok {c : Call} {e : Execution} (he : c.result.1 = .ok e) :
    c.Succeeds ↔ e.succeeded = true := by
  simp [Succeeds, he]

theorem not_succeeds_of_error {c : Call} {f : Failure} (hf : c.result.1 = .error f) : ¬c.Succeeds := by
  simp [Succeeds, hf]

end Call

/-- What was planned was called on the one host, as `c`, and the other host is what came of it. -/
structure Host.Called (h : Host) (plan c : Call) (h' : Host) : Prop where
  planned : c = { plan with moment := c.moment }
  moment : c.moment = ⟨h.tree, h.cwd, h.limits, (h.outcomes.take plan.kind).1⟩
  calls : h'.calls = h.calls ++ [c]
  tree : h'.tree = c.result.2
  cwd : h'.cwd = h.cwd
  env : h'.env = h.env
  candidates : h'.candidates = h.candidates
  limits : h'.limits = h.limits

namespace Host.Called

variable {h h' : Host} {plan c : Call}

theorem momentTree (hc : h.Called plan c h') : c.moment.tree = h.tree := by rw [hc.moment]

theorem momentCwd (hc : h.Called plan c h') : c.moment.cwd = h.cwd := by rw [hc.moment]

theorem momentLimits (hc : h.Called plan c h') : c.moment.limits = h.limits := by rw [hc.moment]

theorem outcome (hc : h.Called plan c h') : c.moment.outcome = (h.outcomes.take plan.kind).1 := by rw [hc.moment]

theorem kind (hc : h.Called plan c h') : c.kind = plan.kind := by rw [hc.planned]

theorem argv (hc : h.Called plan c h') : c.argv = plan.argv := by rw [hc.planned]

theorem place (hc : h.Called plan c h') : c.cwd = plan.cwd := by rw [hc.planned]

theorem input (hc : h.Called plan c h') : c.input = plan.input := by rw [hc.planned]

/-- What was quiet before the call doesn't count. -/
theorem since {h₀ : Host} (hc : h.Called plan c h') (hh : h₀.Alike h) (ht : h.tree = h₀.tree) :
    h₀.Called plan c h' :=
  ⟨hc.planned, by rw [hc.moment, ht, hh.cwd, hh.limits, hh.outcomes], by rw [hc.calls, hh.calls], hc.tree,
    hc.cwd.trans hh.cwd, hc.env.trans hh.env,
    hc.candidates.trans hh.candidates, hc.limits.trans hh.limits⟩

end Host.Called

theorem wp_call (plan : Call) (h : Host) : wp (Action.call plan)
    (fun e h' => ∃ c, h.Called plan c h' ∧ c.result.1 = .ok e)
    (fun f h' => ∃ c, h.Called plan c h' ∧ c.result.1 = .error f) h := by
  unfold Action.call
  rw [wp_bind, wp_write, wp_bind, wp_get]
  dsimp only
  rw [wp_bind, wp_set, wp_ofExcept]
  split
  · next hr => exact ⟨_, ⟨rfl, rfl, rfl, rfl, rfl, rfl, rfl, rfl⟩, hr⟩
  · next hr => exact ⟨_, ⟨rfl, rfl, rfl, rfl, rfl, rfl, rfl, rfl⟩, hr⟩

/-! ### Passes -/

/-- The accepted answer of a call that runs a pass, read within the limits of its moment. -/
def Call.answer (c : Call) (p : Pass) : Except Failure Json := do
  Answer.read (c.moment.limits.answer p) p.name (← c.result.1)

theorem Json.Keyed.field {v : Json} (hv : v.Keyed) (k : String) : (v.field k).Keyed := by
  cases hv with
  | @obj fs _ hfs =>
    show ((fs.lookup k).getD .null).Keyed
    cases hl : fs.lookup k with
    | none => exact .null
    | some x =>
      obtain ⟨before, after, rfl, -⟩ := List.lookup_eq_some_iff.1 hl
      exact hfs (k, x) (List.mem_append_right _ (List.mem_cons_self ..))
  | _ => exact .null

theorem Diagnostic.eq_ofText {b : Json.Bounds} {v : Json} {d : Diagnostic} (h : ofMessage b v = .ok d) :
    ∃ text, d = ofText v text := by
  obtain ⟨text, -, rfl⟩ := Json.Reader.exists_of_map_ok h
  exact ⟨text, rfl⟩

theorem Diagnostic.keyed_locationOf {v : Json} (hv : v.Keyed) : (locationOf v).Keyed := by
  have hfield := hv.field "location"
  unfold locationOf
  split
  · next h => exact h ▸ hfield
  · exact .obj List.nodup_nil (List.forall_mem_nil _)

/-- A diagnostic repeats what the message holds. -/
theorem Diagnostic.keyed_ofText {v : Json} (hv : v.Keyed) (text : String) : (ofText v text).toJson.Keyed := by
  have hplace := keyed_locationOf hv
  have hlocation : (ofText v text).location.Keyed := by
    unfold location
    split
    · exact .null
    · refine .obj (by simp) ?_
      simp only [List.forall_mem_cons]
      exact ⟨hplace.field _, hplace.field _, hplace.field _, hplace.field _, List.forall_mem_nil _⟩
  refine .obj (by simp) ?_
  simp only [List.forall_mem_cons]
  exact ⟨.str _, hlocation, List.forall_mem_nil _⟩

theorem Failure.keyed_itemsOf {v : Json} (hv : v.Keyed) {xs : List Json} (h : itemsOf v = .ok xs) :
    ∀ x ∈ xs, x.Keyed := by
  cases hv with
  | arr hxs =>
    cases h
    exact hxs
  | str s =>
    cases h
    exact List.forall_mem_map.2 fun _ _ => .str _
  | obj _ _ =>
    cases h
    exact List.forall_mem_map.2 fun _ _ => .str _
  | _ => cases h

/-- Nor is it deeper than the message, but for the levels that every diagnostic takes. -/
theorem Diagnostic.fits_ofText {digits : Option Nat} {levels : Nat} {v : Json} (hv : v.Fits ⟨digits, levels⟩)
    (hlevels : 2 ≤ levels) (text : String) : (ofText v text).toJson.Fits ⟨digits, levels⟩ := by
  obtain ⟨levels, rfl⟩ : ∃ m, levels = m + 2 := ⟨levels - 2, by omega⟩
  have hpart : ∀ k, ((locationOf v).field k).Fits ⟨digits, levels⟩ := by
    intro k
    obtain ⟨hshort, hplace⟩ := hv.field "location"
    unfold locationOf
    split
    · next fs hfs =>
      rw [hfs] at hshort hplace
      have hlt := hplace.resolve_left nofun
      have hfits : Json.Fits ⟨digits, levels + 1⟩ _ := ⟨hshort, Nat.le_of_lt_succ hlt⟩
      obtain ⟨hshort, hnull | hdepth⟩ := hfits.field k
      · exact hnull ▸ Json.fits_null _
      · exact ⟨hshort, Nat.le_of_lt_succ hdepth⟩
    · exact Json.fits_null _
  have hlocation : (ofText v text).location.Fits ⟨digits, levels + 1⟩ := by
    unfold location
    split
    · exact Json.fits_null _
    · refine .obj ?_
      simp only [List.forall_mem_cons]
      exact ⟨hpart _, hpart _, hpart _, hpart _, List.forall_mem_nil _⟩
  refine .obj ?_
  simp only [List.forall_mem_cons]
  exact ⟨Json.fits_str _ _, hlocation, List.forall_mem_nil _⟩

/-- No object in the diagnostic has a key twice, and there are two levels left where it was read: so many are those of
a report that stand around it. -/
structure Diagnostic.Reportable (l : Limits) (d : Diagnostic) : Prop where
  keyed : d.toJson.Keyed
  fits : ∃ p, d.toJson.Fits ⟨l.digits, l.reading p - 2⟩

/-- A failure that a run can report: like a plain one, but for its diagnostics. -/
structure Failure.Reportable (l : Limits) (f : Failure) : Prop where
  untyped : ∀ b, f = .bundle b → b.attached = none
  worded : f.report ≠ ""
  told : ∀ d ∈ f.diagnostics, d.Reportable l

theorem Failure.Plain.reportable {f : Failure} (hf : f.Plain) {l : Limits} : f.Reportable l :=
  ⟨hf.untyped, hf.worded, by simp [hf.silent]⟩

namespace Answer

theorem said_ne_empty (pass : String) (answer : Json) : said pass answer ≠ "" := by
  unfold said
  dsimp only
  split
  · next ht => exact Json.display_ne_empty ht
  · simp

/-- Errors that were read of an answer can be reported. -/
theorem reportable_of_reads {l : Bundler.Limits} {p : Pass} {answer : Json} (hkeyed : answer.Keyed)
    (hfits : answer.Fits (l.answer p).toRead) (htruthy : (answer.field "errors").truthy = true) {xs : List Json}
    (hxs : Failure.itemsOf (answer.field "errors") = .ok xs) {ds : List Diagnostic}
    (hds : List.Forall₂ (fun x d => Diagnostic.ofMessage (l.answer p).toShow x = .ok d) xs ds) :
    ∀ d ∈ ds, d.Reportable l := by
  obtain ⟨hshort, hnull | hdepth⟩ := hfits.field "errors"
  · rw [hnull] at htruthy
    cases htruthy
  intro d hd
  obtain ⟨x, hx, hread⟩ := exists_of_forall₂ hds hd
  obtain ⟨text, rfl⟩ := Diagnostic.eq_ofText hread
  obtain ⟨hx', hinner⟩ := hshort.itemsOf hxs x hx
  have hreads := l.reads p
  replace hdepth : (answer.field "errors").depth < l.reading p := hdepth
  have hx'' : x.Fits ⟨l.digits, l.reading p - 2⟩ := ⟨hx', by show x.depth ≤ l.reading p - 2; omega⟩
  exact ⟨Diagnostic.keyed_ofText (Failure.keyed_itemsOf (hkeyed.field "errors") hxs x hx) text,
    p, Diagnostic.fits_ofText hx'' (by omega) text⟩

theorem reportable_read (l : Bundler.Limits) (p : Pass) (pass : String) (e : Execution) {f : Failure}
    (hf : read (l.answer p) pass e = .error f) : f.Reportable l := by
  have hfault : ∀ {m}, m ≠ "" → (protocolFault m).Reportable l := fun hm => (Failure.plain_bundle rfl hm).reportable
  have hcomes := read_cases (l.answer p) pass e
  rw [hf] at hcomes
  cases hcomes with
  | nested => exact (Failure.plain_own rfl).reportable
  | unread => exact hfault (by simp)
  | unsaid => exact hfault (by simp)
  | rejected h _ _ hr hf =>
    cases hr with
    | general =>
      rcases hf with hf | hf <;> cases hf
      exact (Failure.plain_bundle rfl (said_ne_empty pass _)).reportable
    | unlisted =>
      rcases hf with hf | hf <;> cases hf
      exact (Failure.plain_own rfl).reportable
    | compile herrors hxs hds =>
      rcases hf with hf | hf <;> cases hf
      have hgiven := Json.given_of_parse h
      exact ⟨fun b hb => by cases hb; rfl, said_ne_empty pass _,
        reportable_of_reads hgiven.keyed hgiven.fits herrors hxs hds⟩

end Answer

/-- What a pass fails by can be reported on the host that ran it. -/
theorem Call.reportable_answer (c : Call) (p : Pass) {f : Failure} (hf : c.answer p = .error f) :
    f.Reportable c.moment.limits := by
  have hplain := c.plain_result
  unfold Call.answer at hf
  rcases hr : c.result.1 with _ | e
  · rw [hr] at hf hplain
    cases hf
    exact (hplain _ rfl).reportable
  · rw [hr] at hf
    exact Answer.reportable_read _ p p.name e hf

namespace Workplace

variable (w : Workplace)

/-- The call by which a pass is run. -/
def passCall (p : Pass) (config : Json) : Call :=
  w.toolchain.nodeCall p (Program.text p config) w.cache.root w.settings.compileTimeout

theorem wp_runPass (p : Pass) (config : Json) (h : Host) : wp (w.runPass p config)
    (fun answer h' => ∃ c, h.Called (w.passCall p config) c h' ∧ c.answer p = .ok answer)
    (fun f h' => ∃ c, h.Called (w.passCall p config) c h' ∧ c.answer p = .error f) h := by
  unfold runPass
  rw [wp_bind]
  refine wp_mono _ (wp_call _ h) ?_ ?_
  · rintro e h' ⟨c, hc, he⟩
    have hanswer : c.answer p = Answer.read (h'.limits.answer p) p.name e := by
      unfold Call.answer
      rw [he, hc.momentLimits, ← hc.limits]
      rfl
    rw [wp_bind, wp_get, wp_ofExcept]
    split
    · next answer hr => exact ⟨c, hc, hanswer.trans hr⟩
    · next f hr => exact ⟨c, hc, hanswer.trans hr⟩
  · rintro f h' ⟨c, hc, hf⟩
    refine ⟨c, hc, ?_⟩
    unfold Call.answer
    rw [hf]
    rfl

end Workplace

end Bundler
