import Bundler.Proofs.Answering
import Bundler.Proofs.Blaming
import Bundler.Proofs.Comparing

/-!
# The errors that a program lists

A program that rejects the component lists the errors. The run fails by that answer, in whichever way its steps are put
together (`Relays`), and so its report holds one diagnostic for each error, in their order, if the answer can be read
within the limits of the host, and none if it can't (`Run.run_relays`). A diagnostic is a normal form of the error: what
is written of it is read as itself, and so is an error that has this form already, up to the order of its fields
(`Diagnostic.reordered_of_complete`).
-/

namespace Bundler

variable {α β ε : Type}

/-! ### The form of a diagnostic -/

namespace Json

/-- The same value, with the fields of its objects in another order. -/
inductive Reordered : Json → Json → Prop where
  | refl (v : Json) : Reordered v v
  | trans {u v w : Json} (h : Reordered u v) (h' : Reordered v w) : Reordered u w
  | perm {fs gs : List (String × Json)} (h : fs.Perm gs) : Reordered (.obj fs) (.obj gs)
  | field {before after : List (String × Json)} {k : String} {v w : Json} (h : Reordered v w) :
      Reordered (.obj (before ++ (k, v) :: after)) (.obj (before ++ (k, w) :: after))
  | item {before after : List Json} {v w : Json} (h : Reordered v w) :
      Reordered (.arr (before ++ v :: after)) (.arr (before ++ w :: after))

/-- Where no key stands twice, a field is found wherever it stands. -/
theorem lookup_of_mem {fs : List (String × Json)} (hkeys : (fs.map Prod.fst).Nodup) {k : String} {v : Json}
    (hv : (k, v) ∈ fs) : fs.lookup k = some v := by
  obtain ⟨before, after, rfl⟩ := List.append_of_mem hv
  rw [List.map_append, List.map_cons, List.nodup_append] at hkeys
  refine List.lookup_eq_some_iff.2 ⟨before, after, rfl, fun f hf => ?_⟩
  have hne : f.1 ≠ k := hkeys.2.2 f.1 (List.mem_map_of_mem hf) k (List.mem_cons_self ..)
  simpa using hne.symm

section Fields

variable {fs gs : List (String × Json)} (h : fs.Perm gs) (hkeys : (gs.map Prod.fst).Nodup) {k : String} {v : Json}

include h hkeys

theorem field?_of_perm (hv : (k, v) ∈ gs) : (Json.obj fs).field? k = some v :=
  lookup_of_mem ((h.map Prod.fst).nodup_iff.2 hkeys) (h.mem_iff.2 hv)

theorem field_of_perm (hv : (k, v) ∈ gs) : (Json.obj fs).field k = v := by
  unfold field
  rw [field?_of_perm h hkeys hv]
  rfl

end Fields

end Json

namespace Diagnostic

theorem location_of_known {d : Diagnostic} (h : d.file ≠ .null ∨ d.line ≠ .null) : d.location =
    .obj [("file", d.file), ("line", d.line), ("column", d.column), ("lineText", d.lineText)] := by
  have hnull : ∀ {v : Json}, v.isNull = true → v = .null := by
    rintro (_ | _ | _ | _ | _ | _) hv
    · rfl
    all_goals cases hv
  unfold location
  rw [if_neg]
  rw [Bool.and_eq_true]
  exact fun ⟨hfile, hline⟩ => h.elim (· (hnull hfile)) (· (hnull hline))

/-- What is written of a diagnostic can be read anywhere, and then it's written once more. -/
theorem exists_ofMessage_toJson (d : Diagnostic) (b : Json.Bounds) :
    ∃ d', ofMessage b d.toJson = .ok d' ∧ d'.toJson = d.toJson := by
  refine ⟨ofText d.toJson d.text, rfl, ?_⟩
  by_cases hknown : d.file ≠ .null ∨ d.line ≠ .null
  · have hread : ofText d.toJson d.text = d := by
      unfold toJson
      rw [location_of_known hknown]
      rfl
    rw [hread]
  · obtain ⟨hfile, hline⟩ := not_or.1 hknown
    unfold toJson location
    rw [not_not.1 hfile, not_not.1 hline]
    rfl

/-- A message that has the form of a diagnostic: a text, and no place or one with the four parts, of which the file or
the line is known. -/
inductive Complete : Json → Prop where
  | placeless {text : String} {fs : List (String × Json)} (h : fs.Perm [("text", .str text), ("location", .null)]) :
      Complete (.obj fs)
  | placed {text : String} {file line column lineText : Json} {fs place : List (String × Json)}
      (h : fs.Perm [("text", .str text), ("location", .obj place)])
      (hplace : place.Perm [("file", file), ("line", line), ("column", column), ("lineText", lineText)])
      (hknown : file ≠ .null ∨ line ≠ .null) : Complete (.obj fs)

theorem ofMessage_of_fields {fs : List (String × Json)} {text : String} {place : Json}
    (htext : (Json.obj fs).field? "text" = some (.str text)) (hplace : locationOf (.obj fs) = place) (b : Json.Bounds) :
    ofMessage b (.obj fs) = .ok
      { text, file := place.field "file", line := place.field "line", column := place.field "column",
        lineText := place.field "lineText" } := by
  unfold ofMessage textOf
  dsimp only
  rw [htext]
  show Except.ok (ofText (.obj fs) text) = _
  unfold ofText
  rw [hplace]

/-- A message that has the form of a diagnostic stays as it is, wherever it's read. -/
theorem reordered_of_complete {item : Json} (h : Complete item) :
    ∃ d, (∀ b, ofMessage b item = .ok d) ∧ d.toJson.Reordered item := by
  have hfields : ∀ {fs text place}, fs.Perm [("text", .str text), ("location", place)] →
      (Json.obj fs).field? "text" = some (.str text) ∧ (Json.obj fs).field "location" = place := by
    intro fs text place h
    have hkeys : ([("text", Json.str text), ("location", place)].map Prod.fst).Nodup := by simp
    exact ⟨Json.field?_of_perm h hkeys (by simp), Json.field_of_perm h hkeys (by simp)⟩
  cases h with
  | @placeless text fs h =>
    obtain ⟨htext, hlocation⟩ := hfields h
    have hplace : locationOf (.obj fs) = .obj [] := by
      unfold locationOf
      rw [hlocation]
    exact ⟨_, ofMessage_of_fields htext hplace, .perm h.symm⟩
  | @placed text file line column lineText fs place h hplace hknown =>
    obtain ⟨htext, hlocation⟩ := hfields h
    have hlocated : locationOf (.obj fs) = .obj place := by
      unfold locationOf
      rw [hlocation]
    have hkeys : ([("file", file), ("line", line), ("column", column), ("lineText", lineText)].map Prod.fst).Nodup := by
      simp
    have hpart : ∀ k v, (k, v) ∈ [("file", file), ("line", line), ("column", column), ("lineText", lineText)] →
        (Json.obj place).field k = v := fun _ _ => Json.field_of_perm hplace hkeys
    refine ⟨{ text, file, line, column, lineText }, fun b => ?_, ?_⟩
    · rw [ofMessage_of_fields htext hlocated, hpart "file" file (by simp), hpart "line" line (by simp),
        hpart "column" column (by simp), hpart "lineText" lineText (by simp)]
    · rw [toJson, location_of_known hknown]
      exact .trans (@Json.Reordered.field [_] _ _ _ _ (.perm hplace.symm)) (.perm h.symm)

end Diagnostic

/-! ### The answer that a run fails by -/

namespace Call

/-- The program says that it failed, and these are the errors that it lists. -/
def Lists (c : Call) (errors : List Json) : Prop :=
  ∃ e answer ok, c.result.1 = .ok e ∧ Answer.Says e answer ok ∧ ok.truthy = false ∧ answer.field "errors" = .arr errors

/-- The answer of a pass that is needed comes to the failure. -/
def Refuses (c : Call) (f : Failure) : Prop :=
  ∃ p, p ≠ .styles ∧ c.kind = .pass p ∧ c.answer p = .error f

theorem Refuses.unique {c : Call} {f g : Failure} (hf : c.Refuses f) (hg : c.Refuses g) : f = g := by
  obtain ⟨p, -, hkind, hf⟩ := hf
  obtain ⟨q, -, hkind', hg⟩ := hg
  obtain rfl : p = q := Call.Kind.pass.inj (hkind.symm.trans hkind')
  exact Except.error.inj (hf.symm.trans hg)

/-- What the program printed can be read within the limits. -/
def Legible (c : Call) (l : Answer.Limits) : Prop :=
  ∃ e answer, c.result.1 = .ok e ∧ Json.parse l.toRead e.stdout = .ok answer

theorem legible_iff {c : Call} {e : Execution} (he : c.result.1 = .ok e) (l : Answer.Limits) :
    c.Legible l ↔ ∃ v, Json.parse l.toRead e.stdout = .ok v := by
  unfold Legible
  rw [he]
  constructor
  · rintro ⟨_, v, hv, hparse⟩
    exact ⟨v, Except.ok.inj hv ▸ hparse⟩
  · rintro ⟨v, hparse⟩
    exact ⟨e, v, rfl, hparse⟩

/-- The failure holds a diagnostic for each error that is listed, if the answer can be read, and none if it can't. -/
theorem Lists.answer {c : Call} {errors : List Json} (h : c.Lists errors) (herrors : errors ≠ []) (p : Pass) :
    ∃ f, c.answer p = .error f ∧
      (c.Legible (c.moment.limits.answer p) →
        List.Forall₂ (fun item d => Diagnostic.ofMessage (c.moment.limits.answer p).toShow item = .ok d)
          errors f.diagnostics) ∧
      (¬ c.Legible (c.moment.limits.answer p) → f.diagnostics = []) := by
  obtain ⟨e, answer, ok, he, hstated, hok, hlist⟩ := h
  have hanswer : c.answer p = Answer.read (c.moment.limits.answer p) p.name e := by
    unfold Call.answer
    rw [he]
    rfl
  have htruthy : (answer.field "errors").truthy = true := by simp [hlist, Json.truthy, herrors]
  have hcomes := Answer.read_cases (c.moment.limits.answer p) p.name e
  rw [hanswer, legible_iff he]
  generalize Answer.read (c.moment.limits.answer p) p.name e = r at hcomes
  have hunread : ∀ {f}, Json.parse (c.moment.limits.answer p).toRead e.stdout = .error f →
      ¬ ∃ v, Json.parse (c.moment.limits.answer p).toRead e.stdout = .ok v := by
    rintro f hf ⟨v, hv⟩
    cases hf.symm.trans hv
  cases hcomes with
  | nested hf => exact ⟨_, rfl, fun hread => absurd hread (hunread hf), fun _ => rfl⟩
  | unread hf => exact ⟨_, rfl, fun hread => absurd hread (hunread hf), fun _ => rfl⟩
  | unsaid hread hno =>
    rw [((Answer.says_iff hread).1 hstated).2] at hno
    cases hno
  | accepted hread hfield haccepted =>
    obtain ⟨rfl, hfield'⟩ := (Answer.says_iff hread).1 hstated
    cases hfield.symm.trans hfield'
    cases hok.symm.trans haccepted
  | rejected hread hfield _ hr hf =>
    obtain ⟨rfl, -⟩ := (Answer.says_iff hread).1 hstated
    cases hr with
    | general hnone => cases htruthy.symm.trans hnone
    | unlisted hnone =>
      rw [hlist] at hnone
      cases hnone
    | compile _ hxs hds =>
      rw [hlist] at hxs
      cases hxs
      rcases hf with hf | hf <;> cases hf
      exact ⟨_, rfl, fun _ => hds, fun hno => absurd ⟨_, hread⟩ hno⟩

end Call

/-- No pass that is needed is called with an answer that comes to a failure. -/
abbrev Host.Accepts : Host → Host → Prop :=
  Host.Gains fun c => ∀ f, ¬c.Refuses f

/-- Calls of the package manager, or for a style sheet, refuse nothing. -/
theorem Call.not_refuses {c : Call} (hc : ∀ p, p ≠ .styles → c.kind ≠ .pass p) (f : Failure) : ¬c.Refuses f := by
  rintro ⟨p, hp, hkind, -⟩
  exact hc p hp hkind

/-- Where a pass that is needed gives an answer that comes to a failure, the step fails by it. -/
abbrev Relays (failure : ε → Failure) (a : ExceptT ε (StateM Host) α) : Prop :=
  FailsBy (fun c => ∃ f, c.Refuses f) (fun f c => c.Refuses f) failure a

theorem relays_of_accepts {failure : ε → Failure} {a : ExceptT ε (StateM Host) α} (ha : Follows Host.Accepts a) :
    Relays failure a :=
  .of_follows fun h => (ha h).mono fun _ hnone hf => hf.elim hnone

section Steps

variable (w : Workplace)

/-- A pass fails by its own call. -/
theorem relays_runPass (p : Pass) (config : Json) : Relays id (w.runPass p config) := by
  intro h
  have hwp := w.wp_runPass p config h
  have hown : ∀ {c h'}, h.Called (w.passCall p config) c h' → ∀ {f}, c.Refuses f → c.answer p = .error f := by
    rintro c h' hc f ⟨q, -, hkind, hf⟩
    cases hkind.symm.trans hc.kind
    exact hf
  unfold wp at hwp
  split at hwp
  · next answer h' hr =>
    obtain ⟨c, hc, hanswer⟩ := hwp
    rw [hr]
    refine ⟨[c], hc.calls, List.forall_mem_singleton.2 fun ⟨f, hf⟩ => ?_⟩
    nomatch hanswer.symm.trans (hown hc hf)
  · next f h' hr =>
    obtain ⟨c, hc, hanswer⟩ := hwp
    rw [hr]
    refine ⟨[c], hc.calls, List.forall_mem_singleton.2 fun ⟨g, hg⟩ => ⟨f, rfl, ?_⟩⟩
    obtain rfl : f = g := Except.error.inj (hanswer.symm.trans (hown hc hg))
    exact hg

theorem relays_find (entry : Path) : Relays id (Missing.find w entry) :=
  .bind (relays_runPass w .discover _) fun answer =>
    relays_of_accepts (follows_sift (fun _ _ => Host.Same.gains) w entry answer)

theorem relays_compile (harness : String) (entry : Path) : Relays id (Script.compile w harness entry) :=
  .bind (relays_runPass w .finalize _) fun _ => relays_of_accepts (.bind (.ofExcept _) fun _ =>
    .bind (.of_looks (fun _ _ => Host.Same.gains) (Action.looks_write _ _ _)) fun _ => .pure _)

namespace Run

theorem accepts_installMissing (i : Installer) (missing : List String) :
    Follows Host.Accepts (installMissing w i missing) :=
  gains_installMissing w (fun _ _ hc => Call.not_refuses (by simp [hc])) i missing

theorem accepts_style (script : String) : Follows Host.Accepts (style w script) :=
  gains_style w (fun _ _ hc => Call.not_refuses fun _ hp hpass => hp (Call.Kind.pass.inj (hc.symm.trans hpass)).symm)
    script

theorem relays_note (level : Level) (text : String) : Relays Halt.failure (note level text) :=
  relays_of_accepts (follows_note (fun _ _ => Host.Same.gains) level text)

theorem relays_discovering (i : Installer) (resolved : Path) : Relays Halt.failure (discovering w i resolved) :=
  .bind (relays_note _ _) fun _ => .bind (.during (relays_find w resolved) _) fun missing =>
    .bind (relays_note _ _) fun _ => .bind (relays_of_accepts (.during (accepts_installMissing w i missing) _)) fun _ =>
      .bind (relays_note _ _) fun _ => .bind (.during (relays_compile w _ resolved) _) fun script =>
        .bind (relays_note _ _) fun _ => relays_of_accepts (accepts_style w script)

theorem relays_steps (s : Settings) (entry : Path) : Relays Halt.failure (steps s entry) := by
  have hsame : ∀ h h' : Host, h.Same h' → h.Accepts h' := fun _ _ => Host.Same.gains
  have hensure : Follows Host.Accepts (Cache.ofSettings s).ensure :=
    .of_stays ((Cache.ofSettings s).quiet_ensure.mono Host.Alike.gains)
  rw [steps_eq]
  exact .bind (relays_of_accepts (.during hensure _)) fun _ => .bind (relays_note _ _) fun _ =>
    .bind (relays_of_accepts (.during (.of_looks hsame (looks_entryFile entry)) _)) fun resolved =>
      .bind (relays_of_accepts (.during (.of_looks hsame (looks_workplace s)) _)) fun w =>
        .bind (relays_of_accepts
          (.during (gains_installBase w fun _ _ hc => Call.not_refuses (by simp [hc])) _)) fun installer =>
          relays_discovering w installer resolved

end Run

end Steps

/-! ### Runs -/

namespace Run

/-- A run fails by the answer of a pass that comes to a failure, if there is one and the pass is needed. -/
theorem outcome_relays (s : Settings) (entry : Json) (h : Host) : ∃ made,
    (outcome s entry h).2.calls = h.calls ++ made ∧ ∀ c ∈ made, ∀ f, c.Refuses f →
      ∃ halt, (outcome s entry h).1 = .error halt ∧ halt.failure = f := by
  cases entry with
  | str entry =>
    obtain ⟨made, hcalls, hrelays⟩ := relays_steps s (Path.ofString entry) h
    refine ⟨made, hcalls, fun c hc f hf => ?_⟩
    obtain ⟨halt, ho, hrefuses⟩ := hrelays c hc ⟨f, hf⟩
    exact ⟨halt, ho, hrefuses.unique hf⟩
  | _ => exact ⟨[], (List.append_nil _).symm, by simp⟩

/-- A call with errors is reported with a diagnostic for each of them, or with none if its output can't be read. -/
structure Listed (l : Answer.Limits) (c : Call) (errors : List Json) (e : Envelope) : Prop where
  written : e.toJson.field "diagnostics" = .arr (e.diagnostics.map Diagnostic.toJson)
  legible : c.Legible l →
    List.Forall₂ (fun item d => Diagnostic.ofMessage l.toShow item = .ok d) errors e.diagnostics
  illegible : ¬ c.Legible l → e.diagnostics = []

theorem run_lists (s : Settings) (entry : Json) (h : Host) : ∃ r h' made,
    (runJson s entry).run h = (.ok r, h') ∧ h'.calls = h.calls ++ made ∧
    ∀ c ∈ made, ∀ p errors, p ≠ .styles → c.kind = .pass p → c.Lists errors → errors ≠ [] →
      ∃ e stage, r = .failure e stage ∧ Listed (h.limits.answer p) c errors e := by
  obtain ⟨r, h', made, hr, hcalls, houtcome, htraced⟩ := run_made s entry h
  obtain ⟨made', hcalls', hrelays⟩ := outcome_relays s entry h
  obtain rfl : made = made' := List.append_cancel_left (houtcome.symm.trans hcalls')
  refine ⟨r, h', made, hr, hcalls, fun c hc p errors hp hkind hlists hsome => ?_⟩
  obtain ⟨f, hf, htold, hnone⟩ := hlists.answer hsome p
  rw [htraced.bounds c hc] at htold hnone
  obtain ⟨halt, ho, rfl⟩ := hrelays c hc f ⟨p, hp, hkind, hf⟩
  obtain ⟨e, he, rfl⟩ := report_of_outcome ho hr
  have hsaid : e.diagnostics = halt.failure.diagnostics := (Envelope.of_ofFailure (he h.limits.toReport)).2
  exact ⟨e, halt.stage, rfl, rfl, hsaid ▸ htold, hsaid ▸ hnone⟩

/-- Where a pass that is needed rejects the component and lists errors, and the answer can be read, the report of the
run lists a diagnostic for each of them, in their order. If the answer can't be read, it lists none. Whatever isn't too
large is read as a diagnostic. What is written of a diagnostic is what is written of it once it is read, and a message
that has the form of a diagnostic stays as it is. -/
theorem run_relays (s : Settings) (entry : Json) (h : Host) : (∃ r h' made,
    (runJson s entry).run h = (.ok r, h') ∧ h'.calls = h.calls ++ made ∧
    ∀ c ∈ made, ∀ p errors, p ≠ .styles → c.kind = .pass p → c.Lists errors → errors ≠ [] →
      ∃ e stage, r = .failure e stage ∧ Listed (h.limits.answer p) c errors e) ∧
    (∀ b item, item.Short b.digits → item.depth < b.levels → ∃ d, Diagnostic.ofMessage b item = .ok d) ∧
    (∀ b item d, Diagnostic.ofMessage b item = .ok d →
      ∀ b', ∃ d', Diagnostic.ofMessage b' d.toJson = .ok d' ∧ d'.toJson = d.toJson) ∧
    ∀ item, Diagnostic.Complete item →
      ∃ d, (∀ b, Diagnostic.ofMessage b item = .ok d) ∧ d.toJson.Reordered item :=
  ⟨run_lists s entry h, fun _ _ hshort hdepth => ⟨_, Diagnostic.ofMessage_of_short hshort hdepth⟩,
    fun _ _ d _ => d.exists_ofMessage_toJson, fun _ => Diagnostic.reordered_of_complete⟩

/-! ### The first answer of a run -/

/-- The first call asks what is missing. -/
theorem discovering_asks (w : Workplace) (i : Installer) (resolved : Path) (h : Host) : ∃ c rest,
    ((discovering w i resolved).run h).2.calls = h.calls ++ c :: rest ∧ c.kind = .pass .discover ∧
      c.moment.outcome = (h.outcomes.take (.pass .discover)).1 := by
  have hsame : ∀ h h' : Host, h.Same h' → h.Gains (fun _ => True) h' := fun _ _ => Host.Same.gains
  have hrest : ∀ answer, Follows (Host.Gains fun _ => True)
      (during .baseInstalled (Missing.sift w resolved answer) >>= completing w i resolved) := fun answer =>
    .bind (.during (follows_sift hsame w resolved answer) _) fun missing =>
      follows_completing hsame w (fun _ _ => gains_runPass w fun _ => trivial) i resolved
        (gains_installMissing w (fun _ _ _ => trivial) i missing)
  have hasks : ∀ h₁ : Host, ∃ c, h₁.Called (w.passCall .discover (Missing.config w resolved)) c
      ((w.runPass .discover (Missing.config w resolved)).run h₁).2 := fun h₁ => by
    have hwp := w.wp_runPass .discover (Missing.config w resolved) h₁
    unfold wp at hwp
    split at hwp
    · next hr =>
      obtain ⟨c, hc, -⟩ := hwp
      exact ⟨c, hr ▸ hc⟩
    · next hr =>
      obtain ⟨c, hc, -⟩ := hwp
      exact ⟨c, hr ▸ hc⟩
  have heq : discovering w i resolved = advance .cacheReady .baseInstalled >>= fun _ =>
      during .baseInstalled (w.runPass .discover (Missing.config w resolved)) >>= fun answer =>
        during .baseInstalled (Missing.sift w resolved answer) >>= completing w i resolved := by
    simp only [discovering, Missing.find_eq, during_bind, bind_assoc]
  obtain ⟨h₁, hlogged, hh₁⟩ : ∃ h₁, (advance .cacheReady .baseInstalled).run h = (.ok (), h₁) ∧ h.Alike h₁ :=
    ⟨_, rfl, .log h _⟩
  obtain ⟨c, hc⟩ := hasks h₁
  obtain ⟨more, hmore, -⟩ := Follows.snd_bind (a := during .baseInstalled
    (w.runPass .discover (Missing.config w resolved))) hrest h₁
  refine ⟨c, more, ?_, hc.kind, hc.outcome.trans (by rw [hh₁.outcomes]; rfl)⟩
  rw [heq, run_bind_of_ok hlogged, hmore, during_run]
  show ((w.runPass .discover (Missing.config w resolved)).run h₁).2.calls ++ more = _
  rw [hc.calls, hh₁.calls, List.append_assoc, List.singleton_append]

/-- Where all is there that a bundle needs, this is the first call of a run, unless there is none. -/
theorem run_asks {s : Settings} {entry : String} {h : Host}
    (hthere : ∀ n ∈ basePackages s.styles, ((Cache.ofSettings s).isInstalled n).seenAt h.tree h.cwd = .ok true)
    (hready : ((preparing s (Path.ofString entry)).run h).1.toOption.isSome) : ∃ r h' c rest,
    (runJson s (.str entry)).run h = (.ok r, h') ∧ h'.calls = h.calls ++ c :: rest ∧ c.kind = .pass .discover ∧
      c.moment.outcome = (h.outcomes.take (.pass .discover)).1 := by
  have hgrows := wp_iff.1 (wp_preparing Host.Same.grows s (Cache.ofSettings s).grows_ensure (Path.ofString entry) h)
  have halike := wp_iff.1 (wp_preparing Host.Same.alike s (Cache.ofSettings s).quiet_ensure (Path.ofString entry) h)
  rcases hr : (preparing s (Path.ofString entry)).run h with ⟨halt | ⟨resolved, tools⟩, h₁⟩
  · rw [hr] at hready
    cases hready
  obtain ⟨hgrown, hplace⟩ := hgrows.1 _ _ hr
  have hh₁ := halike.1 _ _ hr
  have hsteps := steps_of_prepared hr fun n hn => by
    rw [hplace]
    exact (Cache.ofSettings s).isInstalled_of_grows hgrown (hthere n hn)
  obtain ⟨r, h', hrun, hsame⟩ := runJson_same s (.str entry) h
  obtain ⟨c, rest, hcalls, hkind, houtcome⟩ := discovering_asks (placeOf s tools) {} resolved h₁
  refine ⟨r, h', c, rest, hrun, ?_, hkind, hh₁.outcomes ▸ houtcome⟩
  rw [hsame.alike.calls]
  show ((steps s (Path.ofString entry)).run h).2.calls = _
  rw [hsteps, hcalls, hh₁.calls]

section Erring

/-- An error with its place, in an order of its own. -/
def located : Json :=
  .obj [("location", .obj [("line", .int 3), ("file", .str "a.tsx"), ("column", .int 0), ("lineText", .str "<p>")]),
    ("text", .str "Unexpected end of file")]

/-- An answer that lists errors. -/
def rejection (errors : List Json) : Json :=
  .obj [("ok", .bool false), ("message", .str "Build failed"), ("errors", .arr errors)]

/-- A host whose compiler gives this answer. -/
def erring (errors : List Json) : Host :=
  { stocked with outcomes.discover := [.ends 1 (some (rejection errors).write) "" [] .bySuccess] }

def place : Settings := { cacheDir := Path.ofString "/cache" }

theorem exact_located : located.Exact := by
  have hplace :
      (Json.obj [("line", .int 3), ("file", .str "a.tsx"), ("column", .int 0), ("lineText", .str "<p>")]).Exact := by
    refine .obj (by decide) ?_
    simp only [List.forall_mem_cons]
    exact ⟨.num trivial, .str _, .num trivial, .str _, List.forall_mem_nil _⟩
  refine .obj (by decide) ?_
  simp only [List.forall_mem_cons]
  exact ⟨hplace, .str _, List.forall_mem_nil _⟩

theorem exact_rejection {errors : List Json} (herrors : ∀ x ∈ errors, x.Exact) : (rejection errors).Exact := by
  refine .obj (by simp) ?_
  simp only [List.forall_mem_cons]
  exact ⟨.bool _, .str _, .arr herrors, List.forall_mem_nil _⟩

/-- The answer is that of the first call, which is one for what is missing. -/
theorem run_erring {errors : List Json} (herrors : ∀ x ∈ errors, x.Exact)
    (hready : ((preparing place (Path.ofString "a.tsx")).run (erring errors)).1.toOption.isSome) : ∃ r h' c rest,
    (runJson place (.str "a.tsx")).run (erring errors) = (.ok r, h') ∧ h'.calls = c :: rest ∧
    c.kind = .pass .discover ∧ c.Lists errors ∧ ∃ e, c.result.1 = .ok e ∧ e.stdout = (rejection errors).write := by
  have hthere : ∀ n ∈ basePackages place.styles,
      (((Cache.ofSettings place).isInstalled n).seenAt stocked.tree stocked.cwd).toOption = some true := by
    decide +kernel
  obtain ⟨r, h', c, rest, hr, hcalls, hkind, houtcome⟩ := run_asks (h := erring errors)
    (fun n hn => Except.eq_ok_of_toOption (hthere n hn)) hready
  have hresult : c.result.1 =
      .ok { argv := c.argv, status := 1, stdout := (rejection errors).write, stderr := "" } := by
    unfold Call.result Call.effects
    rw [houtcome, hkind]
    rfl
  exact ⟨r, h', c, rest, hr, hcalls, hkind,
    ⟨_, rejection errors, .bool false, hresult, ⟨Json.parse?_write (exact_rejection herrors), rfl⟩, rfl, rfl⟩,
    _, hresult, rfl⟩

/-- Both errors are in the report of its run, and the first as it is. -/
theorem run_relays_erring : (∃ h' e stage,
    (runJson place (.str "a.tsx")).run (erring [located, .str "1 more"]) = (.ok (.failure e stage), h') ∧
    List.Forall₂ (fun item d => Diagnostic.ofMessage ⟨some 4300, 965⟩ item = .ok d) [located, .str "1 more"]
      e.diagnostics) ∧
    ∃ d, Diagnostic.ofMessage ⟨some 4300, 965⟩ located = .ok d ∧ d.toJson.Reordered located := by
  have herrors : ∀ x ∈ [located, .str "1 more"], x.Exact :=
    List.forall_mem_cons.2 ⟨exact_located, List.forall_mem_singleton.2 (.str _)⟩
  obtain ⟨⟨r, h', made, hr, hcalls, hlists⟩, -, -, hcomplete⟩ :=
    run_relays place (.str "a.tsx") (erring [located, .str "1 more"])
  obtain ⟨r', h'', c, rest, hr', hcalls', hkind, hc, e, he, hstdout⟩ := run_erring herrors (by decide +kernel)
  cases hr.symm.trans hr'
  obtain rfl : made = c :: rest := hcalls.symm.trans hcalls'
  have hfits : (rejection [located, .str "1 more"]).Fits ⟨some 4300, 960⟩ :=
    (Json.excess?_eq_none_iff (show Json.Way.written.leaf = 0 from rfl)).1 (by decide +kernel)
  have hlegible : c.Legible ((erring [located, .str "1 more"]).limits.answer .discover) := by
    refine ⟨e, rejection [located, .str "1 more"], he, ?_⟩
    rw [hstdout]
    exact Json.parse_write (exact_rejection herrors) hfits
  obtain ⟨e, stage, rfl, hlisted⟩ := hlists c (List.mem_cons_self ..) .discover _ nofun hkind hc (by simp)
  have hplaced : Diagnostic.Complete located := by
    refine .placed (.swap _ _ _) (.swap _ _ _) (.inl ?_)
    nofun
  obtain ⟨d, hd, hreordered⟩ := hcomplete located hplaced
  exact ⟨⟨h', e, stage, hr, hlisted.legible hlegible⟩, d, hd _, hreordered⟩

/-- Brackets within brackets. -/
def brackets : Nat → Json
  | 0 => .arr []
  | n + 1 => .arr [brackets n]

theorem depth_brackets : ∀ n, (brackets n).depth = n + 1
  | 0 => rfl
  | n + 1 => by
    rw [brackets, Json.depth, Json.depthItems, Json.depthItems, depth_brackets n, Nat.max_eq_left (Nat.zero_le _)]

theorem exact_brackets : ∀ n, (brackets n).Exact
  | 0 => .arr (List.forall_mem_nil _)
  | n + 1 => .arr (List.forall_mem_singleton.2 (exact_brackets n))

/-- An error with a text and no place, and something else that is nested. -/
def remark (n : Nat) : Json :=
  .obj [("text", .str "t"), ("location", .null), ("detail", brackets n)]

theorem exact_remark (n : Nat) : (remark n).Exact := by
  refine .obj (by simp) ?_
  simp only [List.forall_mem_cons]
  exact ⟨.str _, .null, exact_brackets n, List.forall_mem_nil _⟩

theorem depth_rejection_remark (n : Nat) : (rejection [remark n]).depth = n + 4 := by
  simp [rejection, remark, Json.depth, Json.depthItems, Json.depthFields, depth_brackets]

/-- Where it's nested deeply it's a diagnostic wherever it's read, and yet the report of the run that it fails has
none. -/
theorem remark_unlisted : (∀ b, Diagnostic.ofMessage b (remark 11999) = .ok { text := "t" }) ∧ ∃ e stage h' c rest,
    (runJson place (.str "a.tsx")).run (erring [remark 11999]) = (.ok (.failure e stage), h') ∧ h'.calls = c :: rest ∧
    c.kind = .pass .discover ∧ c.Lists [remark 11999] ∧ e.diagnostics = [] := by
  have herrors : ∀ x ∈ [remark 11999], x.Exact := List.forall_mem_singleton.2 (exact_remark 11999)
  obtain ⟨r, h', c, rest, hr, hcalls, hkind, hc, e, he, hstdout⟩ := run_erring herrors (by decide +kernel)
  obtain ⟨r', h'', made, hr', hcalls', hlists⟩ := run_lists place (.str "a.tsx") (erring [remark 11999])
  cases hr.symm.trans hr'
  obtain rfl : made = c :: rest := hcalls'.symm.trans hcalls
  have hdeep : ¬ (rejection [remark 11999]).Fits ((erring [remark 11999]).limits.answer .discover).toRead :=
    fun hfits => absurd (depth_rejection_remark 11999 ▸ hfits.depth_le) (by decide)
  have hillegible : ¬ c.Legible ((erring [remark 11999]).limits.answer .discover) := by
    rintro ⟨e', answer, he', hread⟩
    obtain ⟨x, hx⟩ := Json.exists_excess_of_not_fits (Json.parse?_write (exact_rejection herrors)) hdeep
    cases he.symm.trans he'
    rw [hstdout, hx] at hread
    cases hread
  obtain ⟨e, stage, rfl, hlisted⟩ := hlists c (List.mem_cons_self ..) .discover _ nofun hkind hc (by simp)
  exact ⟨fun _ => rfl, e, stage, h', c, rest, hr, hcalls, hkind, hc, hlisted.illegible hillegible⟩

end Erring

end Run

end Bundler
