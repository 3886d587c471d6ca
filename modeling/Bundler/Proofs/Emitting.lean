import Bundler.Proofs.Telling

/-!
# What a command writes of a result

A result is written as a document, or, where it is a script and no frame is asked for, as the script itself
(`Command.emit`). The document tells all of the result that a caller can see, and it is read from what is written,
since it is written in printable ASCII; it has to fit into the bounds (`Command.Writable`), as that of a run always does.
The script may hold anything, a control sequence for a terminal too, and of those nothing is left in the output
(`Text.Ansi.Cleared`). So there a script is told exactly if it holds none.
-/

namespace Bundler

/-! ### Control sequences -/

namespace Text.Ansi

variable {cs ds : List Char}

namespace Cleared

theorem length_le (h : Cleared cs ds) : ds.length ≤ cs.length := by
  induction h with
  | nil => exact Nat.le_refl _
  | drop _ _ ih => exact Nat.le_trans ih (by rw [List.length_append]; exact Nat.le_add_left ..)
  | keep _ _ ih => exact Nat.succ_le_succ ih

/-- Nothing is cleared away exactly if there is nothing to clear away. -/
theorem eq_iff (h : Cleared cs ds) : ds = cs ↔ ¬ Holds cs := by
  induction h with
  | nil =>
    refine iff_of_true rfl ?_
    rintro ⟨s, ⟨ps, c, -, -, rfl⟩, hs⟩
    cases List.infix_nil.1 hs
  | @drop s cs ds hs h _ =>
    refine iff_of_false (fun heq => ?_) (not_not_intro ⟨s, hs, List.infix_append_left⟩)
    have hle := h.length_le
    obtain ⟨ps, c, -, -, rfl⟩ := hs
    rw [heq] at hle
    simp at hle
    omega
  | @keep c cs ds hno h ih =>
    rw [List.cons_inj_right, ih, not_iff_not]
    constructor
    · rintro ⟨s, hs, hinfix⟩
      exact ⟨s, hs, hinfix.trans (List.suffix_cons ..).isInfix⟩
    · rintro ⟨s, hs, hinfix⟩
      rcases List.infix_cons_iff.1 hinfix with hprefix | hinfix
      · exact absurd ⟨s, hs, hprefix⟩ hno
      · exact ⟨s, hs, hinfix⟩

end Cleared

/-- Where the parameters of a control sequence end is told by its letter, which is none. -/
theorem params_unique {ps qs cs cs' : List Char} {c d : Char} (hps : ∀ p ∈ ps, isParameter p = true)
    (hqs : ∀ q ∈ qs, isParameter q = true) (hc : c.isAlpha = true) (hd : d.isAlpha = true)
    (h : ps ++ c :: cs = qs ++ d :: cs') : ps = qs ∧ c = d ∧ cs = cs' := by
  have hletter : ∀ {p : Char}, isParameter p = true → p.isAlpha ≠ true := fun hp => by
    rw [isAlpha_of_isParameter hp]
    exact Bool.false_ne_true
  induction ps generalizing qs with
  | nil =>
    cases qs with
    | nil => exact ⟨rfl, List.cons.inj h⟩
    | cons q qs =>
      obtain rfl : c = q := (List.cons.inj h).1
      exact absurd hc (hletter (hqs c (List.mem_cons_self ..)))
  | cons p ps ih =>
    rw [List.forall_mem_cons] at hps
    cases qs with
    | nil =>
      obtain rfl : p = d := (List.cons.inj h).1
      exact absurd hd (hletter hps.1)
    | cons q qs =>
      rw [List.forall_mem_cons] at hqs
      obtain ⟨rfl, hrest⟩ := List.cons.inj h
      obtain ⟨rfl, hboth⟩ := ih hps.2 hqs.2 hrest
      exact ⟨rfl, hboth⟩

theorem IsSequence.unique {s s' cs' : List Char} (hs : IsSequence s) (hs' : IsSequence s') (h : s ++ cs = s' ++ cs') :
    s = s' ∧ cs = cs' := by
  obtain ⟨ps, c, hps, hc, rfl⟩ := hs
  obtain ⟨qs, d, hqs, hd, rfl⟩ := hs'
  simp only [List.cons_append, List.append_assoc, List.nil_append, List.cons.injEq, true_and] at h
  obtain ⟨rfl, rfl, rfl⟩ := params_unique hps hqs hc hd h
  exact ⟨rfl, rfl⟩

/-- There is one way to take the control sequences out of a text. -/
theorem Cleared.unique {ds' : List Char} (h : Cleared cs ds) (h' : Cleared cs ds') : ds = ds' := by
  induction h generalizing ds' with
  | nil =>
    generalize hcs : [] = cs at h'
    cases h' with
    | nil => rfl
    | drop hs =>
      obtain ⟨ps, c, -, -, rfl⟩ := hs
      cases hcs
    | keep => cases hcs
  | @drop s cs ds hs h ih =>
    generalize hcs : s ++ cs = all at h'
    cases h' with
    | nil =>
      obtain ⟨ps, c, -, -, rfl⟩ := hs
      cases hcs
    | drop hs' h' =>
      obtain ⟨rfl, rfl⟩ := hs.unique hs' hcs
      exact ih h'
    | keep hno _ => exact absurd ⟨s, hs, hcs ▸ List.prefix_append s cs⟩ hno
  | @keep c cs ds hno h ih =>
    generalize hcs : c :: cs = all at h'
    cases h' with
    | nil => cases hcs
    | drop hs' _ => exact absurd ⟨_, hs', hcs ▸ List.prefix_append ..⟩ hno
    | keep _ h' =>
      cases hcs
      rw [ih h']

end Text.Ansi

/-! ### Results -/

theorem BuildResult.exact_document {r : BuildResult} (hk : r.Keyed) (hw : r.Whole) : r.document.Exact := by
  cases r with
  | success script styled =>
    refine .obj (by simp) ?_
    simp only [List.forall_mem_cons]
    exact ⟨.bool false, .str script, List.forall_mem_nil _⟩
  | failure e stage => exact Envelope.exact_toJson fun d hd => (hw d hd).exact (hk d hd)

/-- Two results of one kind, with the same script or the same report. -/
inductive BuildResult.Alike : BuildResult → BuildResult → Prop where
  | success (script : String) (styled styled' : Bool) : Alike (success script styled) (success script styled')
  | failure {e e' : Envelope} (stage stage' : Stage) (h : e.toJson = e'.toJson) :
      Alike (failure e stage) (failure e' stage')

theorem BuildResult.document_eq_iff {r r' : BuildResult} : r.document = r'.document ↔ r.Alike r' := by
  constructor
  · intro h
    cases r <;> cases r'
    · cases h
      exact .success ..
    · cases h
    · cases h
    · exact .failure _ _ h
  · rintro (_ | ⟨_, _, h⟩)
    · rfl
    · exact h

/-- What is written is the document: printable ASCII on one line, from which it is read again. -/
structure Json.Shows (v : Json) (text : String) : Prop where
  written : text = v.write
  plain : ∀ c ∈ text.toList, Text.isPlain c = true
  legible : ∀ b, v.Fits b → Json.parse b text = .ok v

theorem Json.Exact.shows {v : Json} (hv : v.Exact) : v.Shows v.write :=
  ⟨rfl, plain_write v, hv.legible⟩

/-! ### Nothing else is written -/

namespace Host

/-- Where no news are wanted nothing is written. -/
def Mute (h h' : Host) : Prop :=
  h.news = .dropped → h.Tells [] h'

instance : Chained Mute where
  refl h _ := Chained.refl h
  trans ha hb hnews := (ha hnews).append (hb ((ha hnews).news.trans hnews))

end Host

namespace Run

theorem mute_of_hushed {α ε : Type} {a : ExceptT ε (StateM Host) α} (ha : Hushed a) : Follows Host.Mute a :=
  fun h _ => ha h

theorem mute_announceIf (first : Bool) (event : String) : Follows Host.Mute (announceIf first event) := by
  unfold announceIf
  cases first with
  | false => exact .pure ()
  | true =>
    intro h hnews
    show h.Tells [] ((Action.announce event).run h).2
    unfold Action.announce
    rw [run_get_bind, hnews]
    exact Chained.refl h

theorem mute_installBase (w : Workplace) : Follows Host.Mute (installBase w) := by
  have hneeds : Hushed w.cache.needsInstall :=
    .bind (Action.Reads.follows (w.cache.reads_isInstalled "react")) fun _ => .pure _
  rw [installBase_eq]
  exact .bind (mute_of_hushed hneeds) fun first => .bind (mute_announceIf first _) fun _ =>
    .bind (mute_of_hushed (.attempt (.toAction (hushed_install w _) {}))) fun r =>
      .bind (mute_announceIf first _) fun _ => .bind (.ofExcept r) fun _ => .pure _

theorem mute_steps (s : Settings) (entry : Path) : Follows Host.Mute (steps s entry) := by
  rw [steps_eq_preparing]
  refine .bind (mute_of_hushed (hushed_preparing s entry)) fun prepared => ?_
  refine .bind (.during (mute_installBase (placeOf s prepared.2)) _) fun i => ?_
  have hrest : Hushed (discovering (placeOf s prepared.2) i prepared.1) :=
    follows_discovering (fun _ _ => Host.Same.hushed) _ (hushed_install _) (hushed_runPass _) i prepared.1
  rw [discovering_eq] at hrest
  exact mute_of_hushed hrest

/-- Where no news are wanted a run writes nothing. -/
theorem run_mute (s : Settings) (entry : Path) {h : Host} (hnews : h.news = .dropped) :
    ∃ r h', (run s entry).run h = (.ok r, h') ∧ r.document.Fits h'.limits.toReport ∧ h'.stdout = h.stdout := by
  obtain ⟨r, h', hr, hreportable, hlimits, hsame⟩ := run_result s entry h
  have htells : h.Tells [] h' := (mute_steps s entry h hnews).append hsame.hushed
  exact ⟨r, h', hr, hlimits.symm ▸ hreportable.fits_document, htells.stdout.trans String.append_empty⟩

end Run

namespace Command

/-- The script is all that's written, or the document isn't too large to be written. -/
def Writable (b : Json.Bounds) (framed : Bool) (r : BuildResult) : Prop :=
  (framed = false ∧ ∃ script styled, r = .success script styled) ∨ r.document.Fits b

theorem echo_run (s : String) (h : Host) : (Action.echo s).run h =
    (.ok (), { h with stdout := h.stdout ++ String.ofList (h.stripping.strip s.toList) }) := rfl

theorem echo_document (v : Json) (h : Host) :
    (Action.echo v.write).run h = (.ok (), { h with stdout := h.stdout ++ v.write }) := by
  have hstrip : h.stripping.strip v.write.toList = v.write.toList :=
    (h.stripping.cleared _).eq_of_notMem fun hmem => absurd (v.plain_write _ hmem) (by decide)
  rw [echo_run, hstrip, String.ofList_toList]

/-- What is written of a result, with a frame or without. -/
inductive Writes : BuildResult → Bool → String → Prop where
  /-- A script without a frame is written as it is if it holds no control sequence. -/
  | script (script : String) (styled : Bool) {text : String} (hcleared : Text.Ansi.Cleared script.toList text.toList)
    (hsame : text = script ↔ ¬ Text.Ansi.Holds script.toList) : Writes (.success script styled) false text
  | framed {r : BuildResult} {text : String} (hshows : r.document.Shows text) : Writes r true text
  | failure {e : Envelope} (stage : Stage) {text : String} (hshows : e.toJson.Shows text) :
    Writes (.failure e stage) false text

theorem emit_script (script : String) (styled : Bool) : ∃ text, Writes (.success script styled) false text ∧
    ∀ b h, (emit b false (.success script styled)).run h = (.ok 0, { h with stdout := h.stdout ++ text }) := by
  let cleared := Text.Ansi.Stripping.standard.strip script.toList
  have hcleared : Text.Ansi.Cleared script.toList cleared := Text.Ansi.Stripping.standard.cleared _
  refine ⟨String.ofList cleared, .script script styled ?_ ?_, fun b h => ?_⟩
  · rwa [String.toList_ofList]
  · rw [← hcleared.eq_iff, ← String.toList_inj, String.toList_ofList]
  · -- however they are taken out, the same is left
    have hsame : h.stripping.strip script.toList = cleared := (h.stripping.cleared _).unique hcleared
    rw [← hsame]
    rfl

theorem output_framed (b : Json.Bounds) (r : BuildResult) :
    output b true r = (r.document.encode b).mapError .excess := by
  cases r <;> rfl

/-- What is written of a document is the same wherever it can be written. -/
theorem write_of_output {b : Json.Bounds} {r : BuildResult} {text : String} (h : output b true r = .ok text) :
    text = r.document.write := by
  rw [output_framed] at h
  by_cases hfits : r.document.Fits b
  · rw [Json.encode_of_fits hfits] at h
    exact (Except.ok.inj h).symm
  · obtain ⟨e, -, he⟩ := Json.exists_encode_eq_error hfits
    rw [he] at h
    cases h

section Emit

variable {b : Json.Bounds} {framed : Bool} {r : BuildResult}

theorem emit_document (hr : output b framed r = (r.document.encode b).mapError .excess) (hfits : r.document.Fits b)
    (h : Host) :
    (emit b framed r).run h = (.ok (exitCode r), { h with stdout := h.stdout ++ r.document.write }) := by
  have hout : (MonadExcept.ofExcept (output b framed r) : Action String).run h = (.ok r.document.write, h) := by
    rw [hr, Json.encode_of_fits hfits]
    rfl
  unfold emit
  rw [run_bind_of_ok hout, run_bind_of_ok (echo_document _ h)]
  rfl

/-- A document that is too large isn't written, nor is anything else. -/
theorem emit_excess (hno : ¬ Writable b framed r) (h : Host) :
    ∃ e, Json.excess? .written b.digits b.levels r.document = some e ∧
      (emit b framed r).run h = (.error (.excess e), h) := by
  obtain ⟨hscript, hfits⟩ := not_or.1 hno
  have hr : output b framed r = (r.document.encode b).mapError .excess := by
    cases framed with
    | true => exact output_framed b r
    | false =>
      cases r with
      | success script styled => exact absurd ⟨rfl, script, styled, rfl⟩ hscript
      | failure e stage => rfl
  obtain ⟨e, he, hencode⟩ := Json.exists_encode_eq_error hfits
  have hout : (MonadExcept.ofExcept (output b framed r) : Action String).run h = (.error (.excess e), h) := by
    rw [hr, hencode]
    rfl
  exact ⟨e, he, run_bind_of_error hout _⟩

end Emit

/-- A result that can be written is, and nothing else. -/
theorem emit_writes {r : BuildResult} (hk : r.Keyed) (hw : r.Whole) (framed : Bool) : ∃ text, Writes r framed text ∧
    ∀ b h, Writable b framed r →
      (emit b framed r).run h = (.ok (exitCode r), { h with stdout := h.stdout ++ text }) := by
  have hshows := (r.exact_document hk hw).shows
  cases framed with
  | true => exact ⟨_, .framed hshows, fun b h hr => emit_document (output_framed b r) (hr.resolve_left nofun) h⟩
  | false =>
    cases r with
    | success script styled =>
      obtain ⟨text, hwrites, hemit⟩ := emit_script script styled
      exact ⟨text, hwrites, fun b h _ => hemit b h⟩
    | failure e stage =>
      exact ⟨_, .failure stage hshows, fun b h hr => emit_document rfl (hr.resolve_left nofun) h⟩

/-- The command writes the result of its run, which can be written, and its run writes nothing. -/
theorem runBundle_run {entry : String} {styles : Bool} {s : Settings} {r : BuildResult} {h h' : Host}
    (hs : Settings.ofEnvironment h.home h.env [("styles", .bool styles)] = .ok s)
    (hr : (Run.run s (Path.ofString entry)).run { h with news := .dropped } = (.ok r, h')) (framed : Bool) :
    h'.stdout = h.stdout ∧ Writable h'.limits.toReport framed r ∧
      (runBundle entry styles framed).run h = (emit h'.limits.toReport framed r).run h' := by
  have hsettings : (settings [("styles", .bool styles)]).run h = (.ok s, h) := by
    unfold settings
    rw [run_get_bind, hs]
    rfl
  obtain ⟨r', h'', hr', hfits, hstdout⟩ := Run.run_mute s (Path.ofString entry) (h := { h with news := .dropped }) rfl
  rw [hr] at hr'
  cases hr'
  refine ⟨hstdout, .inr hfits, ?_⟩
  unfold runBundle
  rw [run_bind_of_ok hsettings, run_modify_bind, run_bind_of_ok hr, run_get_bind]

theorem exitCode_eq_zero_iff (r : BuildResult) : exitCode r = 0 ↔ ∃ script styled, r = .success script styled := by
  cases r with
  | success script styled => exact iff_of_true rfl ⟨script, styled, rfl⟩
  | failure e stage => exact iff_of_false nofun fun ⟨_, _, h⟩ => nomatch h

/-- A result is told by its output and its exit code, of which the document's flag says the same: the same output with
a frame is that of results that are alike, and without a frame a script is all that's written, but for the control
sequences it holds. The command writes as much of the result of its run, which can always be written. Of a result that
can't be written nothing is. -/
theorem emit_tells {r r' : BuildResult} (hk : r.Keyed) (hw : r.Whole) (hk' : r'.Keyed) (hw' : r'.Whole)
    (framed : Bool) :
    (∃ text, Writes r framed text ∧
      (∀ b h, Writable b framed r →
        (emit b framed r).run h = (.ok (exitCode r), { h with stdout := h.stdout ++ text })) ∧
      ∀ entry styles s h h', Settings.ofEnvironment h.home h.env [("styles", .bool styles)] = .ok s →
        (Run.run s (Path.ofString entry)).run { h with news := .dropped } = (.ok r, h') →
        (runBundle entry styles framed).run h = (.ok (exitCode r), { h' with stdout := h.stdout ++ text })) ∧
    (∀ b h, ¬ Writable b framed r → ∃ e, Json.excess? .written b.digits b.levels r.document = some e ∧
      (emit b framed r).run h = (.error (.excess e), h)) ∧
    (exitCode r = 0 ↔ ∃ script styled, r = .success script styled) ∧
    r.document.field "error" = .bool (exitCode r == 1) ∧
    (∀ b b' text, output b true r = .ok text → output b' true r' = .ok text → r.Alike r') ∧
    (r.Alike r' → ∀ b, output b true r = output b true r') := by
  refine ⟨?_, fun b h hno => emit_excess hno h, exitCode_eq_zero_iff r, by cases r <;> rfl, ?_, fun halike b => ?_⟩
  · obtain ⟨text, hwrites, hemit⟩ := emit_writes hk hw framed
    refine ⟨text, hwrites, hemit, fun entry styles s h h' hs hr => ?_⟩
    obtain ⟨hstdout, hwritable, hrun⟩ := runBundle_run hs hr framed
    rw [hrun, hemit _ h' hwritable, hstdout]
  · intro b b' text htext htext'
    have hread := Json.parse?_write (r.exact_document hk hw)
    rw [← write_of_output htext, write_of_output htext', Json.parse?_write (r'.exact_document hk' hw')] at hread
    exact BuildResult.document_eq_iff.1 (Option.some.inj hread).symm
  · rw [output_framed, output_framed, BuildResult.document_eq_iff.2 halike]

/-- A diagnostic with a place of which only the line is known. -/
def finding : Diagnostic where
  text := "\x1b[1mExpected ';'"
  line := .int 3

theorem every_finding {number : Number → Prop} {keys : List String → Prop} (hline : number (.int 3))
    (hkeys : ∀ ks : List String, ks.Nodup → keys ks) : finding.toJson.Every number keys := by
  have hplace : finding.location.Every number keys := by
    refine .obj (hkeys _ (by decide)) ?_
    simp only [List.forall_mem_cons]
    exact ⟨.null, .num hline, .null, .null, List.forall_mem_nil _⟩
  refine .obj (hkeys _ (by decide)) ?_
  simp only [List.forall_mem_cons]
  exact ⟨.str _, hplace, List.forall_mem_nil _⟩

def refused : BuildResult :=
  .failure { type := .malformed, message := "Expected \";\"", diagnostics := [finding] } .missingInstalled

/-- A script that reads like the report of that failure. -/
def disguised : BuildResult :=
  .success refused.document.write false

/-- Without a frame only the exit code tells the two apart. -/
theorem disguised_told : refused.Keyed ∧ refused.Whole ∧
    output Limits.standard.toReport false refused = output Limits.standard.toReport false disguised ∧
    exitCode refused = 1 ∧ exitCode disguised = 0 ∧
    output Limits.standard.toReport true refused ≠ output Limits.standard.toReport true disguised := by
  have hk : refused.Keyed := List.forall_mem_singleton.2 (every_finding trivial fun _ hks => hks)
  have hw : refused.Whole := List.forall_mem_singleton.2 (every_finding trivial fun _ _ => trivial)
  have hk' : disguised.Keyed := trivial
  have hw' : disguised.Whole := trivial
  have hfits : refused.document.Fits Limits.standard.toReport :=
    (Json.excess?_eq_none_iff (show Json.Way.written.leaf = 0 from rfl)).1 (by decide +kernel)
  have hwritten : ∀ framed, output Limits.standard.toReport framed refused = .ok refused.document.write := fun framed =>
    congrArg (Except.mapError Failure.excess) (Json.encode_of_fits hfits)
  obtain ⟨-, -, -, -, htold, -⟩ := emit_tells hk hw hk' hw' false
  refine ⟨hk, hw, hwritten false, rfl, rfl, fun heq => ?_⟩
  nomatch htold _ _ _ (hwritten true) (heq ▸ hwritten true)

/-- A script that writes in colour. -/
def coloured : String := "console.log('\x1b[31mred\x1b[0m')"

/-- It's no script for a terminal, and yet its colours are lost. -/
theorem coloured_stripped :
    (emit Limits.standard.toReport false (.success coloured false)).run {} =
        (.ok 0, { stdout := "console.log('red')" }) ∧
      "console.log('red')" ≠ coloured := by
  refine ⟨rfl, ?_⟩
  decide

end Command

end Bundler
