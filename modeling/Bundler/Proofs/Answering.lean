import Mathlib.Data.List.Forall2
import Bundler.Program.Answer
import Bundler.Proofs.Parsing

/-!
# What an answer comes to

A program that says it succeeded gives its answer, and any other output should come to a failure of bundling: of the
protocol if the output isn't an object with a field `ok`, of the compiler if errors are listed, of bundling in general
if not (`Answer.Due`). Three kinds of output come to something else: one that is nested too deeply to be read, an answer
with a whole number that is too long to be read, and a rejection whose errors are `true` or a number, where there is
nothing to list (`Answer.Stray`). There are no others (`Answer.read_due_iff`), since whatever is read of an answer can
be shown as well (`Answer.rejection_cases`).
-/

namespace Bundler

theorem exists_mapM_ok {f : α → Except ε β} : ∀ {xs : List α}, (∀ x ∈ xs, ∃ y, f x = .ok y) →
    ∃ ys, xs.mapM f = .ok ys ∧ List.Forall₂ (fun x y => f x = .ok y) xs ys
  | [], _ => ⟨[], rfl, .nil⟩
  | x :: xs, h => by
    obtain ⟨y, hy⟩ := h x (List.mem_cons_self ..)
    obtain ⟨ys, hys, hall⟩ := exists_mapM_ok fun x' hx' => h x' (List.mem_cons_of_mem _ hx')
    refine ⟨y :: ys, ?_, .cons hy hall⟩
    rw [List.mapM_cons, hy, hys]
    rfl

theorem exists_of_forall₂ {r : α → β → Prop} {xs : List α} {ys : List β} (h : List.Forall₂ r xs ys) {y : β}
    (hy : y ∈ ys) : ∃ x ∈ xs, r x y := by
  induction h with
  | nil => cases hy
  | @cons x _ _ _ hxy _ ih =>
    rcases List.mem_cons.1 hy with rfl | hy
    · exact ⟨x, List.mem_cons_self .., hxy⟩
    · obtain ⟨x', hx', h⟩ := ih hy
      exact ⟨x', List.mem_cons_of_mem _ hx', h⟩

/-! ### Whatever is read can be shown -/

namespace Json

variable {b : Bounds} {v : Json}

/-- The values in a value stand deeper than it does; its characters or its keys are values without others. -/
theorem Short.itemsOf (hv : v.Short digits) {xs : List Json} (h : Failure.itemsOf v = .ok xs) :
    ∀ x ∈ xs, x.Short digits ∧ (x.depth = 0 ∨ x.depth < v.depth) := by
  cases hv with
  | arr hxs =>
    cases h
    exact fun x hx => ⟨hxs x hx, .inr (Nat.lt_succ_of_le (depthItems_le_iff.1 (Nat.le_refl _) x hx))⟩
  | str s =>
    cases h
    exact List.forall_mem_map.2 fun _ _ => ⟨.str _, .inl rfl⟩
  | obj _ _ =>
    cases h
    exact List.forall_mem_map.2 fun _ _ => ⟨.str _, .inl rfl⟩
  | _ => cases h

end Json

/-- A message that isn't too deep is read, and its text is shown in full. -/
theorem Diagnostic.ofMessage_of_short {b : Json.Bounds} {v : Json} (hshort : v.Short b.digits)
    (hdepth : v.depth < b.levels) : ofMessage b v = .ok (ofText v (textOf v).display) := by
  have htext : (textOf v).displayWithin b = .ok (textOf v).display := by
    cases v with
    | obj fs =>
      have hfits : (Json.obj fs).Fits b := ⟨hshort, Nat.le_of_lt hdepth⟩
      rw [textOf]
      cases hfield : (Json.obj fs).field? "text" with
      | none => rfl
      | some x =>
        have hx := hfits.field "text"
        rw [show (Json.obj fs).field "text" = x by rw [Json.field, hfield]; rfl] at hx
        refine Json.displayWithin_of_short hx.1 ?_
        rcases hx.2 with rfl | hlt
        · exact Nat.lt_of_le_of_lt (Nat.zero_le _) hdepth
        · exact hlt
    | _ => exact Json.displayWithin_of_short hshort hdepth
  rw [ofMessage, htext]
  rfl

namespace Answer

/-- The output is an object, and this is its field `ok`. -/
def Says (e : Execution) (answer ok : Json) : Prop :=
  Json.parse? e.stdout = some answer ∧ answer.field? "ok" = some ok

/-- What an output should come to. -/
inductive Due (e : Execution) : Except Failure Json → Prop where
  | accepted {answer ok : Json} (h : Says e answer ok) (hok : ok.truthy = true) : Due e (.ok answer)
  | protocol {b : BundleFault} (h : ∀ answer ok, ¬ Says e answer ok) (hb : b.kind = .protocol) :
      Due e (.error (.bundle b))
  | compile {answer ok : Json} {b : BundleFault} (h : Says e answer ok) (hok : ok.truthy = false)
      (herrors : (answer.field "errors").truthy = true) (hb : b.kind = .compile) : Due e (.error (.bundle b))
  | general {answer ok : Json} {b : BundleFault} (h : Says e answer ok) (hok : ok.truthy = false)
      (herrors : (answer.field "errors").truthy = false) (hb : b.kind = .general) : Due e (.error (.bundle b))

/-- A value that counts as errors but holds none: `true`, or a number. -/
inductive Unlisted : Json → Prop where
  | yes : Unlisted (.bool true)
  | number {n : Number} (hn : n.isZero = false) : Unlisted (.num n)

/-- The outputs that come to something else. -/
inductive Stray (l : Limits) (pass : String) (e : Execution) : Failure → Prop where
  | nested {doing : Option String} (h : Json.parse l.toRead e.stdout = .error (.excess (.levels doing))) :
      Stray l pass e (.excess (.levels doing))
  | long {limit : Nat} {found : Option Nat} {answer ok : Json}
      (h : Json.parse l.toRead e.stdout = .error (.excess (.digits limit found))) (hstated : Says e answer ok) :
      Stray l pass e (unanswered pass e)
  | unlisted {answer ok : Json} (h : Json.parse l.toRead e.stdout = .ok answer) (hstated : Says e answer ok)
      (hok : ok.truthy = false) (herrors : Unlisted (answer.field "errors")) :
      Stray l pass e (.mismatch (.notIterable (answer.field "errors").typeName))

variable {l : Limits} {pass : String} {e : Execution} {answer ok : Json}

theorem Unlisted.truthy {v : Json} (h : Unlisted v) : v.truthy = true := by
  cases h with
  | yes => rfl
  | number hn => simp [Json.truthy, hn]

theorem Unlisted.itemsOf {v : Json} (h : Unlisted v) :
    Failure.itemsOf v = .error (.mismatch (.notIterable v.typeName)) := by
  cases h <;> rfl

theorem itemsOf_or_unlisted {v : Json} (hv : v.truthy = true) :
    (∃ xs, Failure.itemsOf v = .ok xs) ∨ Unlisted v := by
  cases v with
  | null => cases hv
  | bool b =>
    obtain rfl : b = true := hv
    exact .inr .yes
  | num n => exact .inr (.number (by simpa [Json.truthy] using hv))
  | str s => exact .inl ⟨_, rfl⟩
  | arr xs => exact .inl ⟨_, rfl⟩
  | obj fs => exact .inl ⟨_, rfl⟩

/-- The message of a rejection. -/
def said (pass : String) (answer : Json) : String :=
  let message := answer.field "message"
  if message.truthy then message.display else pass ++ " failed"

theorem messageOf_of_fits (pass : String) (h : answer.Fits l.toRead) :
    messageOf l.toShow pass answer = .ok (said pass answer) := by
  unfold messageOf said
  dsimp only
  split
  · next htruthy =>
    obtain ⟨hshort, hnull | hdepth⟩ := h.field "message"
    · rw [hnull] at htruthy
      cases htruthy
    · exact Json.displayWithin_of_short hshort (Nat.lt_of_lt_of_le hdepth l.shows)
  · rfl

/-- Errors that were read can be shown, each of them. -/
theorem diagnosticsOf_of_fits (h : answer.Fits l.toRead) (htruthy : (answer.field "errors").truthy = true)
    {xs : List Json} (hxs : Failure.itemsOf (answer.field "errors") = .ok xs) :
    ∃ ds, diagnosticsOf l.toShow (answer.field "errors") = .ok ds ∧
      List.Forall₂ (fun x d => Diagnostic.ofMessage l.toShow x = .ok d) xs ds := by
  obtain ⟨hshort, hnull | hdepth⟩ := h.field "errors"
  · rw [hnull] at htruthy
    cases htruthy
  have hitems : ∀ x ∈ xs, ∃ d, Diagnostic.ofMessage l.toShow x = .ok d := fun x hx => by
    obtain ⟨hx, hle⟩ := hshort.itemsOf hxs x hx
    have hshowing : (answer.field "errors").depth < l.toShow.levels := Nat.lt_of_lt_of_le hdepth l.shows
    exact ⟨_, Diagnostic.ofMessage_of_short (b := l.toShow) hx (by omega)⟩
  obtain ⟨ds, hds, hall⟩ := exists_mapM_ok hitems
  refine ⟨ds, ?_, hall⟩
  rw [diagnosticsOf, hxs]
  show Except.mapError _ (xs.mapM _) = _
  rw [hds]
  rfl

/-- What a rejection that was read comes to, by the errors it lists. -/
inductive Rejects (l : Limits) (pass : String) (answer : Json) : Except Failure Failure → Prop where
  | general (herrors : (answer.field "errors").truthy = false) :
      Rejects l pass answer (.ok (.bundle { kind := .general, message := said pass answer }))
  | compile {xs : List Json} {ds : List Diagnostic} (herrors : (answer.field "errors").truthy = true)
      (hxs : Failure.itemsOf (answer.field "errors") = .ok xs)
      (hds : List.Forall₂ (fun x d => Diagnostic.ofMessage l.toShow x = .ok d) xs ds) :
      Rejects l pass answer (.ok (.bundle { kind := .compile, message := said pass answer, diagnostics := ds }))
  | unlisted (herrors : Unlisted (answer.field "errors")) :
      Rejects l pass answer (.error (.mismatch (.notIterable (answer.field "errors").typeName)))

theorem rejection_cases (pass : String) (h : answer.Fits l.toRead) :
    Rejects l pass answer (rejection l.toShow pass answer) := by
  have hrejection : rejection l.toShow pass answer =
      if (answer.field "errors").truthy then
        (diagnosticsOf l.toShow (answer.field "errors")).map fun diagnostics =>
          .bundle { kind := .compile, message := said pass answer, diagnostics }
      else .ok (.bundle { kind := .general, message := said pass answer }) := by
    unfold rejection
    rw [messageOf_of_fits pass h]
    rfl
  rw [hrejection]
  split
  · next herrors =>
    rcases itemsOf_or_unlisted herrors with ⟨xs, hxs⟩ | hunlisted
    · obtain ⟨ds, hds, hall⟩ := diagnosticsOf_of_fits h herrors hxs
      rw [hds]
      exact .compile herrors hxs hall
    · rw [diagnosticsOf, hunlisted.itemsOf]
      exact .unlisted hunlisted
  · next herrors => exact .general (by simpa using herrors)

/-- What a program's output comes to, by how it is read. -/
inductive Comes (l : Limits) (pass : String) (e : Execution) : Except Failure Json → Prop where
  | nested {doing : Option String} (h : Json.parse l.toRead e.stdout = .error (.excess (.levels doing))) :
      Comes l pass e (.error (.excess (.levels doing)))
  | unread {f : Json.Fault} (h : Json.parse l.toRead e.stdout = .error f)
      (hf : ∀ doing, f ≠ .excess (.levels doing)) : Comes l pass e (.error (unanswered pass e))
  | unsaid {answer : Json} (h : Json.parse l.toRead e.stdout = .ok answer) (hok : answer.field? "ok" = none) :
      Comes l pass e (.error (protocolFault (pass ++ " driver returned an unexpected answer")))
  | accepted {answer ok : Json} (h : Json.parse l.toRead e.stdout = .ok answer) (hok : answer.field? "ok" = some ok)
      (htruthy : ok.truthy = true) : Comes l pass e (.ok answer)
  | rejected {answer ok : Json} {r : Except Failure Failure} {f : Failure}
      (h : Json.parse l.toRead e.stdout = .ok answer) (hok : answer.field? "ok" = some ok)
      (htruthy : ok.truthy = false) (hr : Rejects l pass answer r) (hf : r = .ok f ∨ r = .error f) :
      Comes l pass e (.error f)

theorem read_cases (l : Limits) (pass : String) (e : Execution) : Comes l pass e (read l pass e) := by
  unfold read
  split
  · next h => exact .nested h
  · next f hf h => exact .unread h hf
  · next answer h =>
    split
    · next hok => exact .unsaid h hok
    · next ok hok =>
      split
      · next htruthy => exact .accepted h hok htruthy
      · next htruthy =>
        have hrejects := rejection_cases (l := l) pass (Json.given_of_parse h).fits
        split
        · next f hr =>
          rw [hr] at hrejects
          exact .rejected h hok (by simpa using htruthy) hrejects (.inl rfl)
        · next f hr =>
          rw [hr] at hrejects
          exact .rejected h hok (by simpa using htruthy) hrejects (.inr rfl)

/-- Whatever is read within bounds is what the output says. -/
theorem says_iff (h : Json.parse l.toRead e.stdout = .ok answer) {answer' : Json} :
    Says e answer' ok ↔ answer' = answer ∧ answer.field? "ok" = some ok := by
  rw [Says, Json.parse?_of_parse h, Option.some_inj]
  constructor
  · rintro ⟨rfl, hok⟩
    exact ⟨rfl, hok⟩
  · rintro ⟨rfl, hok⟩
    exact ⟨rfl, hok⟩

theorem due_or_stray (l : Limits) (pass : String) (e : Execution) :
    Due e (read l pass e) ∨ ∃ f, read l pass e = .error f ∧ Stray l pass e f := by
  have hcomes := read_cases l pass e
  generalize read l pass e = r at hcomes
  cases hcomes with
  | nested h => exact .inr ⟨_, rfl, .nested h⟩
  | @unread f h hf =>
    by_cases hstated : ∃ answer ok, Says e answer ok
    · obtain ⟨answer, ok, hstated⟩ := hstated
      match f with
      | .malformed =>
        rw [Says, Json.parse?_of_malformed h] at hstated
        cases hstated.1
      | .excess (.levels doing) => exact absurd rfl (hf doing)
      | .excess (.digits limit found) => exact .inr ⟨_, rfl, .long h hstated⟩
    · exact .inl (.protocol (fun answer ok h => hstated ⟨answer, ok, h⟩) rfl)
  | unsaid h hok =>
    refine .inl (.protocol (fun answer' ok hstated => ?_) rfl)
    rw [((says_iff h).1 hstated).2] at hok
    cases hok
  | accepted h hok htruthy => exact .inl (.accepted ((says_iff h).2 ⟨rfl, hok⟩) htruthy)
  | rejected h hok htruthy hr hf =>
    have hstated := (says_iff h).2 ⟨rfl, hok⟩
    cases hr with
    | general herrors =>
      rcases hf with hf | hf <;> cases hf
      exact .inl (.general hstated htruthy herrors rfl)
    | compile herrors =>
      rcases hf with hf | hf <;> cases hf
      exact .inl (.compile hstated htruthy herrors rfl)
    | unlisted herrors =>
      rcases hf with hf | hf <;> cases hf
      exact .inr ⟨_, rfl, .unlisted h hstated htruthy herrors⟩

theorem read_of_stray {f : Failure} (hf : Stray l pass e f) : read l pass e = .error f := by
  have hcomes := read_cases l pass e
  generalize read l pass e = r at hcomes
  cases hf with
  | nested h =>
    cases hcomes with
    | nested h' => rw [h] at h'; cases h'; rfl
    | unread h' hf => rw [h] at h'; cases h'; exact absurd rfl (hf _)
    | _ h' => rw [h] at h'; cases h'
  | long h _ =>
    cases hcomes with
    | unread _ _ => rfl
    | _ h' => rw [h] at h'; cases h'
  | unlisted h hstated hok herrors =>
    have hfield := ((says_iff h).1 hstated).2
    cases hcomes with
    | rejected h' hok' _ hr hf =>
      rw [h] at h'
      cases h'
      cases hr with
      | general hfalse => rw [herrors.truthy] at hfalse; cases hfalse
      | compile _ hxs _ => rw [herrors.itemsOf] at hxs; cases hxs
      | unlisted _ => rcases hf with hf | hf <;> cases hf; rfl
    | unsaid h' hok' => rw [h] at h'; cases h'; rw [hfield] at hok'; cases hok'
    | accepted h' hok' htruthy =>
      rw [h] at h'
      cases h'
      rw [hfield] at hok'
      cases hok'
      rw [hok] at htruthy
      cases htruthy
    | _ h' => rw [h] at h'; cases h'

theorem not_due_of_stray {f : Failure} (hf : Stray l pass e f) : ¬ Due e (.error f) := by
  intro h
  cases hf with
  | nested => cases h
  | unlisted => cases h
  | long _ hstated =>
    generalize hf : unanswered pass e = f at h
    cases h with
    | protocol hno => exact hno _ _ hstated
    | compile _ _ _ hb => cases hf; cases hb
    | general _ _ _ hb => cases hf; cases hb

/-- An output comes to what it should, unless it is one of the three kinds of `Stray`: then it comes to another
failure. -/
theorem read_due_iff (l : Limits) (pass : String) (e : Execution) :
    (Due e (read l pass e) ↔ ∀ f, ¬ Stray l pass e f) ∧
      ∀ f, Stray l pass e f → read l pass e = .error f := by
  refine ⟨⟨fun hdue f hf => ?_, fun hno => ?_⟩, fun f hf => read_of_stray hf⟩
  · rw [read_of_stray hf] at hdue
    exact not_due_of_stray hf hdue
  · exact (due_or_stray l pass e).resolve_right fun ⟨f, _, hf⟩ => hno f hf

/-- Where brackets are read as deep as they may be, the next one is too many. -/
theorem value_replicate {digits : Option Nat} : ∀ (levels : Nat) {n : Nat}, 2 * levels < n →
    Json.Reader.value digits n levels (List.replicate (levels + 1) '[') = .error (.tooDeep "array")
  | 0, n + 1, _ => rfl
  | levels + 1, n + 2, h => by
    -- a level takes two of the fuel: one for the value and one for its items
    rw [List.replicate_succ]
    show Except.map _ (Json.Reader.items digits (n + 1) levels (List.replicate (levels + 1) '[')) = _
    rw [Json.Reader.items, value_replicate levels (by omega)]
    rfl

theorem parse_replicate (b : Json.Bounds) :
    Json.parse b (String.ofList (List.replicate (b.levels + 1) '[')) = .error (.tooDeep "array") := by
  have hskip : Json.Reader.skip (List.replicate (b.levels + 1) '[') = List.replicate (b.levels + 1) '[' := rfl
  unfold Json.parse
  simp only [String.toList_ofList, List.length_replicate, hskip]
  rw [value_replicate b.levels (by omega)]

/-- The limits that a pass has if nothing is said of them. -/
def usual (p : Pass) : Limits :=
  Bundler.Limits.standard.answer p

/-- A rejection with a number where its errors should be. -/
def numbered : Execution where
  argv := []
  status := 1
  stdout := "\x7b\"ok\": false, \"message\": \"m\", \"errors\": 5\x7d"

theorem stray_numbered (p : Pass) (pass : String) :
    Stray (usual p) pass numbered (.mismatch (.notIterable "int")) := by
  let answer : Json := .obj [("ok", .bool false), ("message", .str "m"), ("errors", .int 5)]
  have hwrite : numbered.stdout = answer.write := by decide +kernel
  have hexact : answer.Exact := by
    refine .obj (by decide) ?_
    simp only [List.forall_mem_cons]
    exact ⟨.bool false, .str "m", .num trivial, List.forall_mem_nil _⟩
  have hfits : answer.Fits (usual p).toRead := by
    refine ⟨.obj trivial ?_, by cases p <;> decide⟩
    simp only [List.forall_mem_cons]
    exact ⟨.bool false, .str "m", .num fun limit hlimit => by cases hlimit; decide, List.forall_mem_nil _⟩
  have hparse : Json.parse (usual p).toRead numbered.stdout = .ok answer := by
    rw [hwrite]
    exact Json.parse_write hexact hfits
  exact .unlisted hparse ((says_iff hparse).2 ⟨rfl, rfl⟩) rfl (.number rfl)

/-- It comes to no failure of bundling. -/
theorem numbered_astray : ¬ Due numbered (read (usual .discover) "discover" numbered) ∧
    read (usual .discover) "discover" numbered = .error (.mismatch (.notIterable "int")) := by
  rw [read_of_stray (stray_numbered .discover "discover")]
  exact ⟨not_due_of_stray (stray_numbered .discover "discover"), rfl⟩

/-- An output of brackets, one more than can be read. -/
def nested : Execution where
  argv := []
  status := 0
  stdout := String.ofList (List.replicate ((usual .finalize).reading + 1) '[')

/-- An answer with a power of ten where its truth value should be. -/
def long (k : Nat) : Execution where
  argv := []
  status := 0
  stdout := (Json.obj [("ok", .int (Nat.pow 10 k))]).write

theorem stray_long {k : Nat} (hk : 4300 ≤ k) (p : Pass) (pass : String) :
    Stray (usual p) pass (long k) (unanswered pass (long k)) := by
  have hexact : (Json.obj [("ok", .int (Nat.pow 10 k))]).Exact :=
    .obj (by simp) (List.forall_mem_singleton.2 (.num trivial))
  have hbroken : Json.brokenBy? (usual p).digits (.int (Nat.pow 10 k)) = some 4300 :=
    Json.brokenBy?_of_lt (Nat.lt_of_le_of_lt hk (Number.lt_digits_pow (by omega)))
  exact .long (Json.parse_long (b := (usual p).toRead) hbroken (by cases p <;> decide) "ok")
    ⟨Json.parse?_write hexact, rfl⟩

/-- None of them comes to what it should. -/
theorem read_due_nested :
    read (usual .finalize) "finalize" nested =
      .error (.excess (.levels (some "decoding a JSON array from a unicode string"))) ∧
    ¬ Due nested (read (usual .finalize) "finalize" nested) ∧
    ¬ Due numbered (read (usual .finalize) "finalize" numbered) ∧
    ¬ Due (long 4300) (read (usual .finalize) "finalize" (long 4300)) := by
  have hnested : Stray (usual .finalize) "finalize" nested
      (.excess (.levels (some "decoding a JSON array from a unicode string"))) :=
    .nested (parse_replicate (usual .finalize).toRead)
  refine ⟨((read_due_iff _ "finalize" nested).2 _ hnested), fun h => ?_, fun h => ?_, fun h => ?_⟩
  · exact (read_due_iff _ "finalize" nested).1.1 h _ hnested
  · exact (read_due_iff _ "finalize" numbered).1.1 h _ (stray_numbered .finalize "finalize")
  · exact (read_due_iff _ "finalize" (long 4300)).1.1 h _ (stray_long (Nat.le_refl _) .finalize "finalize")

end Answer

end Bundler
