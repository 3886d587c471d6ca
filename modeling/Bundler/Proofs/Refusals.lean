import Bundler.Proofs.Absence
import Bundler.Proofs.Writing

/-!
# What a refused install says

A call of the package manager that ends without success is a failure of the network if one of its two streams says so:
as no marker goes over the end of a line, none is made where the streams are put together
(`Execution.containsAny_printed`). Any other is typed by its message, in which nothing but the names that were asked for
and the end of the output can hold a marker (`Installer.infix_exitMessage`). What the package manager says before that
end goes unheard, unless all that it said is short enough to be told (`Installer.runBatch_typed`).
-/

namespace Bundler

namespace Text

section Infix

variable {pat xs ys : List Char}

theorem prefix_append_cons_iff {c : Char} (h : c ∉ pat) : pat <+: xs ++ c :: ys ↔ pat <+: xs := by
  refine ⟨fun hpat => ?_, fun hpat => hpat.trans (List.prefix_append xs (c :: ys))⟩
  rcases List.prefix_or_prefix_of_prefix hpat (List.prefix_append xs (c :: ys)) with hxs | ⟨more, rfl⟩
  · exact hxs
  · rw [List.prefix_append_right_inj] at hpat
    cases more with
    | nil => simp
    | cons d more =>
      obtain ⟨rfl, -⟩ := List.cons_prefix_cons.1 hpat
      simp at h

/-- A text without some character stands on one side of it. -/
theorem infix_append_cons_iff {c : Char} (h : c ∉ pat) : pat <:+: xs ++ c :: ys ↔ pat <:+: xs ∨ pat <:+: ys := by
  induction xs with
  | nil =>
    rw [List.nil_append, List.infix_cons_iff, ← List.nil_append (c :: ys), prefix_append_cons_iff h, List.prefix_nil,
      List.infix_nil]
  | cons x xs ih =>
    rw [List.cons_append, List.infix_cons_iff, ih, ← List.cons_append, prefix_append_cons_iff h, List.infix_cons_iff,
      or_assoc]

theorem infix_dropWhile_iff {p : Char → Bool} {d : Char} (hfirst : pat.head? = some d) (hd : p d = false) :
    ∀ xs, pat <:+: xs.dropWhile p ↔ pat <:+: xs
  | [] => .rfl
  | x :: xs => by
    rw [List.dropWhile_cons]
    split
    · next hx =>
      rw [infix_dropWhile_iff hfirst hd xs, List.infix_cons_iff, iff_or_self]
      rintro ⟨more, hmore⟩
      obtain ⟨rest, rfl⟩ := List.head?_eq_some_iff.1 hfirst
      obtain ⟨rfl, -⟩ := List.cons.inj hmore
      simp [hd] at hx
    · rfl

theorem infix_concat_iff_of_last {c d : Char} (hlast : pat.getLast? = some d) (hd : d ≠ c) :
    pat <:+: xs ++ [c] ↔ pat <:+: xs := by
  rw [List.infix_concat_iff, or_iff_right_iff_imp]
  rintro ⟨before, hbefore⟩
  have hends := congrArg List.getLast? hbefore
  rw [List.getLast?_append, hlast, List.getLast?_concat] at hends
  exact absurd (Option.some.inj hends) hd

/-- A text with no blank at either end stands in another as it does without the blanks around that. -/
theorem infix_trim_iff (hfirst : ∃ c ∈ pat.head?, isBlank c = false) (hlast : ∃ c ∈ pat.getLast?, isBlank c = false) :
    pat <:+: trim xs ↔ pat <:+: xs := by
  obtain ⟨c, hc, hcblank⟩ := hfirst
  obtain ⟨d, hd, hdblank⟩ := hlast
  have hreverse : pat.reverse.head? = some d := by rw [List.head?_reverse]; exact hd
  unfold trim trimRight trimLeft
  rw [← List.reverse_infix, List.reverse_reverse, infix_dropWhile_iff hreverse hdblank, List.reverse_infix,
    infix_dropWhile_iff hc hcblank]

end Infix

theorem containsAny_eq_or {text a b : String} {markers : List String}
    (h : ∀ m ∈ markers, m.toList <:+: text.toList ↔ m.toList <:+: a.toList ∨ m.toList <:+: b.toList) :
    containsAny text markers = (containsAny a markers || containsAny b markers) := by
  rw [Bool.eq_iff_iff, Bool.or_eq_true, containsAny_iff, containsAny_iff, containsAny_iff]
  constructor
  · rintro ⟨m, hm, hfound⟩
    exact ((h m hm).1 hfound).imp (fun ha => ⟨m, hm, ha⟩) fun hb => ⟨m, hm, hb⟩
  · rintro (⟨m, hm, ha⟩ | ⟨m, hm, hb⟩)
    · exact ⟨m, hm, (h m hm).2 (.inl ha)⟩
    · exact ⟨m, hm, (h m hm).2 (.inr hb)⟩

end Text

open Text

/-! ### Markers -/

namespace Marker

/-- The characters of what is said of a status. -/
def isStatusChar (c : Char) : Bool :=
  c.isDigit || "exit -:".toList.contains c

/-- A marker that is found in a message about a failed install only where the package manager or a name says it. -/
structure Telling (m : List Char) : Prop where
  first : ∃ c ∈ m.head?, isBlank c = false
  last : ∃ c ∈ m.getLast?, isBlank c = false
  inLine : '\n' ∉ m
  noParenthesis : '(' ∉ m ∧ ')' ∉ m
  apart : Apart m "npm install failed for ".toList
  noStatus : ∃ c ∈ m, isStatusChar c = false

theorem telling_iff {m : List Char} : Telling m ↔
    (m.head?.any fun c => !isBlank c) = true ∧ (m.getLast?.any fun c => !isBlank c) = true ∧ '\n' ∉ m ∧
      ('(' ∉ m ∧ ')' ∉ m) ∧ Apart m "npm install failed for ".toList ∧ (m.any fun c => !isStatusChar c) = true := by
  simp only [Option.any_eq_true, List.any_eq_true, Bool.not_eq_true']
  exact ⟨fun ⟨h₁, h₂, h₃, h₄, h₅, h₆⟩ => ⟨h₁, h₂, h₃, h₄, h₅, h₆⟩,
    fun ⟨h₁, h₂, h₃, h₄, h₅, h₆⟩ => ⟨h₁, h₂, h₃, h₄, h₅, h₆⟩⟩

instance (m : List Char) : Decidable (Telling m) :=
  decidable_of_iff _ telling_iff.symm

theorem telling_unresolved : ∀ m ∈ unresolved, Telling m.toList := by decide +kernel

theorem telling_network : ∀ m ∈ packageManager ++ network, Telling m.toList := by decide +kernel

end Marker

open Marker (Telling)

/-! ### What was printed -/

theorem Marker.Telling.ne_nil {m : List Char} (hm : Telling m) : m ≠ [] := by
  rintro rfl
  obtain ⟨c, hc, -⟩ := hm.first
  nomatch hc

/-- No marker is made where the streams are put together. -/
theorem Execution.infix_printed (e : Execution) {m : List Char} (hm : Telling m) :
    m <:+: e.printed.toList ↔ m <:+: e.stdout.toList ∨ m <:+: e.stderr.toList := by
  have hempty : ∀ {s : String}, s.isEmpty = true → ¬m <:+: s.toList := by
    intro s hs
    rw [String.isEmpty_iff.1 hs]
    simpa using hm.ne_nil
  unfold printed
  cases hout : e.stdout.isEmpty with
  | true =>
    rw [List.filter_cons_of_neg (by simp [hout]), or_iff_right (hempty hout)]
    cases herr : e.stderr.isEmpty with
    | true =>
      rw [List.filter_cons_of_neg (by simp [herr]), iff_false_right (hempty herr)]
      exact hempty (s := "") rfl
    | false => rw [List.filter_cons_of_pos (by simp [herr]), List.filter_nil, String.intercalate_singleton]
  | false =>
    rw [List.filter_cons_of_pos (by simp [hout])]
    cases herr : e.stderr.isEmpty with
    | true =>
      rw [List.filter_cons_of_neg (by simp [herr]), List.filter_nil, String.intercalate_singleton,
        or_iff_left (hempty herr)]
    | false =>
      rw [List.filter_cons_of_pos (by simp [herr]), List.filter_nil, ← infix_append_cons_iff hm.inLine]
      have hjoined : ("\n".intercalate [e.stdout, e.stderr]).toList = e.stdout.toList ++ '\n' :: e.stderr.toList := by
        simp [String.intercalate_cons_of_ne_nil]
      rw [hjoined]

/-- Some marker of the list stands in one of the streams. -/
def Execution.mentions (e : Execution) (markers : List String) : Bool :=
  containsAny e.stdout markers || containsAny e.stderr markers

theorem Execution.containsAny_printed (e : Execution) {markers : List String}
    (h : ∀ m ∈ markers, Telling m.toList) : containsAny e.printed markers = e.mentions markers :=
  containsAny_eq_or fun m hm => e.infix_printed (h m hm)

/-- The end of what was printed holds all of it if it's short enough. -/
theorem Answer.containsAny_tail_of_short {s : String} {markers : List String} (h : ∀ m ∈ markers, Telling m.toList)
    (hshort : (trim s.toList).length ≤ 1500) : containsAny (tail s) markers = containsAny s markers := by
  have htail : (tail s).toList = trim s.toList := by
    unfold tail lastChars
    rw [String.toList_ofList, Nat.sub_eq_zero_of_le hshort, List.drop_zero]
  rw [Bool.eq_iff_iff, containsAny_iff, containsAny_iff, htail]
  exact exists_congr fun m => and_congr_right fun hm => infix_trim_iff (h m hm).first (h m hm).last

theorem isStatusChar_of_mem_int (n : Int) : ∀ c ∈ (toString n).toList, Marker.isStatusChar c = true := by
  have hnat : ∀ k : Nat, ∀ c ∈ (toString k).toList, Marker.isStatusChar c = true := fun k c hc => by
    simp [Marker.isStatusChar, Json.Writer.isDigit_of_mem_nat c hc]
  cases n with
  | ofNat k => exact hnat k
  | negSucc k =>
    have hneg : toString (Int.negSucc k) = "-" ++ toString (k + 1) := rfl
    rw [hneg, String.toList_append]
    exact List.forall_mem_append.2 ⟨List.all_eq_true.1 (by decide), hnat (k + 1)⟩

namespace Installer

/-- What is said of a batch whose call ended without success, if not the network is to blame. -/
def exitMessage (batch : List String) (e : Execution) : String :=
  "npm install failed for " ++ names batch ++ " (exit " ++ toString e.status ++ "):\n" ++ Answer.tail e.printed

theorem exitFailure_eq (batch : List String) (e : Execution) : exitFailure batch e =
    if e.mentions Marker.network then
      .bundle
        { kind := .network
          message := "Network error while installing " ++ names batch ++ ":\n" ++ Answer.tail e.printed
          packages := batch, output := e.printed }
    else .bundle { kind := .install, message := exitMessage batch e, packages := batch, output := e.printed } := by
  have hnetwork := e.containsAny_printed fun m hm => Marker.telling_network m (List.mem_append_right _ hm)
  unfold exitFailure exitMessage
  dsimp only
  rw [hnetwork]

/-- Nothing in the message makes a marker but the names and the end of the output. -/
theorem infix_exitMessage (batch : List String) (e : Execution) {m : List Char} (hm : Telling m) :
    m <:+: (exitMessage batch e).toList ↔ m <:+: (names batch).toList ∨ m <:+: (Answer.tail e.printed).toList := by
  obtain ⟨c, hc, hforeign⟩ := hm.noStatus
  obtain ⟨d, hd, hblank⟩ := hm.last
  have hmessage : (exitMessage batch e).toList = "npm install failed for ".toList ++ ((names batch).toList ++ [' '] ++
      '(' :: ("exit ".toList ++ (toString e.status).toList ++
        ')' :: (":".toList ++ '\n' :: (Answer.tail e.printed).toList))) := by
    unfold exitMessage
    simp [String.toList_append]
  have hstatus : ∀ cs : List Char, (∀ x ∈ cs, Marker.isStatusChar x = true) → ¬m <:+: cs := fun cs hcs hm => by
    simp [hcs c (hm.subset hc)] at hforeign
  have hspace : d ≠ ' ' := by
    rintro rfl
    nomatch hblank
  rw [hmessage, infix_append_of_apart hm.apart, infix_append_cons_iff hm.noParenthesis.1,
    infix_append_cons_iff hm.noParenthesis.2, infix_append_cons_iff hm.inLine, infix_concat_iff_of_last hd hspace,
    or_iff_right (hstatus ("exit ".toList ++ _)
      (List.forall_mem_append.2 ⟨List.all_eq_true.1 (by decide), isStatusChar_of_mem_int e.status⟩)),
    or_iff_right (hstatus ":".toList (List.all_eq_true.1 (by decide)))]

/-- Some marker of the list stands where it's looked for: in the names or in the end of the output. -/
def hears (batch : List String) (e : Execution) (markers : List String) : Bool :=
  containsAny (names batch) markers || containsAny (Answer.tail e.printed) markers

theorem containsAny_exitMessage (batch : List String) (e : Execution) {markers : List String}
    (h : ∀ m ∈ markers, Telling m.toList) : containsAny (exitMessage batch e) markers = hears batch e markers :=
  containsAny_eq_or fun m hm => infix_exitMessage batch e (h m hm)

/-- All that was printed is heard if it's short enough. -/
theorem hears_of_short {batch : List String} {e : Execution} {markers : List String}
    (h : ∀ m ∈ markers, Telling m.toList) (hshort : (trim e.printed.toList).length ≤ 1500)
    (hmentions : e.mentions markers = true) : hears batch e markers = true := by
  unfold hears
  rw [Answer.containsAny_tail_of_short h hshort, e.containsAny_printed h, hmentions, Bool.or_true]

theorem ofFailure_exitFailure (b : Json.Bounds) (batch : List String) {e : Execution}
    (hoffline : e.mentions Marker.network = false) : Envelope.ofFailure b Rule.table (exitFailure batch e) = .ok
      { type := if hears batch e Marker.unresolved then .resolve
          else if hears batch e (Marker.packageManager ++ Marker.network) then .network
          else .unknown
        message := exitMessage batch e } := by
  rw [exitFailure_eq, hoffline, if_neg Bool.false_ne_true, ← containsAny_exitMessage batch e Marker.telling_unresolved,
    ← containsAny_exitMessage batch e Marker.telling_network, ← Rule.typeOf_message]
  rfl

/-- Whatever is installed, a call that ends without success and doesn't name the network is reported, and the type of
the report is told by the names and by the end of the output: it's that of what can't be resolved if and only if some
marker of that stands there. One that was printed is always among them if the output is short enough. -/
theorem runBatch_typed (w : Workplace) (batch : List String) (s : Installer × Host) : ∃ c r s',
    (runBatch w batch).run s = (r, s') ∧ s.2.Called (batchCall w batch) c s'.2 ∧
    ∀ e, c.result.1 = .ok e → e.succeeded = false → e.mentions Marker.network = false → ∃ f env, r = .error f ∧
      (∀ b, Envelope.ofFailure b Rule.table f = .ok env) ∧
      env.type = (if hears batch e Marker.unresolved then .resolve
        else if hears batch e (Marker.packageManager ++ Marker.network) then .network
        else .unknown) ∧
      ((trim e.printed.toList).length ≤ 1500 → e.mentions Marker.unresolved = true → env.type = .resolve) := by
  have hwp := wp_runBatch w batch s
  unfold wp at hwp
  split at hwp
  · next s' hr =>
    obtain ⟨-, c, hc, hsucceeds⟩ := hwp
    refine ⟨c, _, s', hr, hc, fun e he hfailed => ?_⟩
    simp [(Call.succeeds_iff_of_ok he).1 hsucceeds] at hfailed
  · next f s' hr =>
    obtain ⟨-, -, c, hc, -, rfl⟩ := hwp
    refine ⟨c, _, s', hr, hc, fun e he _ hoffline => ?_⟩
    have hrefusal : refusal w batch c = exitFailure batch e := by
      unfold refusal
      rw [he]
    have hreport := fun b => hrefusal ▸ ofFailure_exitFailure b batch hoffline
    refine ⟨_, _, rfl, hreport, rfl, fun hshort hmentions => ?_⟩
    exact if_pos (hears_of_short Marker.telling_unresolved hshort hmentions)

section Digressing

/-- What a package manager says that tells what is missing first, and then something else. -/
def digression (more : List Char) : List Char :=
  "npm error code E404".toList ++ more

/-- A call of that package manager. -/
def digressing (more : List Char) : Execution where
  argv := []
  status := 1
  stderr := String.ofList (digression more)

/-- The type of the report of that call. -/
def digressingType (more : List Char) : Option ErrorType :=
  (Envelope.ofFailure Limits.standard.toReport Rule.table (exitFailure ["a"] (digressing more))).toOption.map
    Envelope.type

theorem hears_digressing (more : List Char) {markers : List String} (ha : containsAny (names ["a"]) markers = false) :
    hears ["a"] (digressing more) markers =
      markers.any fun m => occurs m.toList (lastChars 1500 (trim (digression more))) := by
  have hprinted : (digressing more).printed = String.ofList (digression more) := by
    have hstderr : (digressing more).stderr.isEmpty = false := by
      rw [String.isEmpty_eq_false_iff]
      intro hnil
      have hlist := congrArg String.toList hnil
      rw [digressing, String.toList_ofList] at hlist
      nomatch hlist
    unfold Execution.printed
    rw [List.filter_cons_of_neg (by simp [digressing]), List.filter_cons_of_pos (by simp [hstderr]), List.filter_nil,
      String.intercalate_singleton]
    rfl
  unfold hears Answer.tail
  rw [ha, hprinted, Bool.false_or, String.toList_ofList]
  unfold containsAny
  rw [String.toList_ofList]

theorem digressingType_eq {more : List Char}
    (hoffline : (Marker.network.any fun m => occurs m.toList (digression more)) = false) : digressingType more = some
      (if Marker.unresolved.any fun m => occurs m.toList (lastChars 1500 (trim (digression more))) then .resolve
      else if (Marker.packageManager ++ Marker.network).any fun m =>
          occurs m.toList (lastChars 1500 (trim (digression more))) then .network
      else .unknown) := by
  have hmentions : (digressing more).mentions Marker.network = false := by
    have hstderr : (digressing more).stderr.toList = digression more := String.toList_ofList
    unfold Execution.mentions containsAny
    rw [hstderr, hoffline]
    rfl
  unfold digressingType
  rw [ofFailure_exitFailure _ _ hmentions, hears_digressing more (by decide), hears_digressing more (by decide),
    Except.toOption, Option.map_some]

/-- Where each marker has a character that isn't there, there is none. -/
theorem any_occurs_eq_false {markers : List String} {cs : List Char} (there : List Char)
    (hmarkers : ∀ m ∈ markers, ¬m.toList ⊆ there) (hcs : cs ⊆ there) :
    (markers.any fun m => occurs m.toList cs) = false :=
  List.any_eq_false.2 fun m hm hoccurs => hmarkers m hm (List.Subset.trans (occurs_iff.1 hoccurs).subset hcs)

/-- A marker is lost as soon as one character of it doesn't belong to the end any more. -/
theorem marker_cut_off : digressingType (List.replicate 1496 '.') = some .resolve ∧
    digressingType (List.replicate 1497 '.') = some .unknown ∧
    digressingType (List.replicate 150 ('\n' :: "npm error".toList)).flatten = some .network := by
  have hdots : ∀ n, ∀ there : List Char, '.' ∈ there → List.replicate n '.' ⊆ there := fun n there hdot c hc =>
    List.eq_of_mem_replicate hc ▸ hdot
  have hlines : (List.replicate 150 ('\n' :: "npm error".toList)).flatten ⊆ "npm ero\n".toList := by
    intro c hc
    obtain ⟨line, hmem, hc⟩ := List.mem_flatten.1 hc
    obtain rfl := List.eq_of_mem_replicate hmem
    have hline : '\n' :: "npm error".toList ⊆ "npm ero\n".toList := by decide
    exact hline hc
  have hmore : "npm ero\n".toList ⊆ "npm error code E404\n".toList := by decide
  have hkept : lastChars 1500 (trim (digression (List.replicate 1496 '.'))) =
      "E404".toList ++ List.replicate 1496 '.' := by
    decide +kernel
  have hlost : lastChars 1500 (trim (digression (List.replicate 1497 '.'))) =
      "404".toList ++ List.replicate 1497 '.' := by
    decide +kernel
  have hnoise : lastChars 1500 (trim (digression (List.replicate 150 ('\n' :: "npm error".toList)).flatten)) =
      (List.replicate 150 ('\n' :: "npm error".toList)).flatten := by
    decide +kernel
  refine ⟨?_, ?_, ?_⟩
  · rw [digressingType_eq (any_occurs_eq_false "npm error code E404.".toList (by decide)
      (List.append_subset.2 ⟨by decide, hdots _ _ (by decide)⟩)), hkept, if_pos]
    exact List.any_eq_true.2 ⟨"E404", by decide, occurs_iff.2 (List.prefix_append _ _).isInfix⟩
  · have hnone : "404".toList ++ List.replicate 1497 '.' ⊆ "40.".toList :=
      List.append_subset.2 ⟨by decide, hdots _ _ (by decide)⟩
    rw [digressingType_eq (any_occurs_eq_false "npm error code E404.".toList (by decide)
      (List.append_subset.2 ⟨by decide, hdots _ _ (by decide)⟩)), hlost,
      any_occurs_eq_false "40.".toList (by decide) hnone, any_occurs_eq_false "40.".toList (by decide) hnone,
      if_neg Bool.false_ne_true, if_neg Bool.false_ne_true]
  · have hinside : "npm error".toList <:+: (List.replicate 150 ('\n' :: "npm error".toList)).flatten :=
      (List.suffix_cons '\n' "npm error".toList).isInfix.trans
        (List.infix_of_mem_flatten (List.mem_replicate.2 ⟨by decide, rfl⟩))
    rw [digressingType_eq (any_occurs_eq_false "npm error code E404\n".toList (by decide)
      (List.append_subset.2 ⟨by decide, List.Subset.trans hlines hmore⟩)), hnoise,
      any_occurs_eq_false "npm ero\n".toList (by decide) hlines, if_neg Bool.false_ne_true, if_pos]
    exact List.any_eq_true.2 ⟨"npm error", by decide, occurs_iff.2 hinside⟩

end Digressing

end Installer

end Bundler
