import Mathlib.Data.List.TakeDrop
import Bundler.Package.Offender
import Bundler.Proofs.Discovering

/-!
# What a message complains about

A shape reads what it finds at the first place where it fits, and each shape has a lead-in of its own that has to be in
the text (`Offender.leads`). So where a text holds one of them and no other, that one decides, whatever stands around
it: if a name was put there in one of the ways in which compilers, runtimes and package managers do it (`Complains`),
the name is found again, whatever path or version stands behind it (`nameIn_of_complains`). Of other texts it's known
that nothing is found but names of packages (`nameIn_exact`), though not that something can be told of each: a shape may
find nothing but blanks, and a name may end in one.
-/

namespace Bundler

namespace Text

/-! ### Searching -/

theorem bne_of_not_mem {c : Char} {cs : List Char} (h : c ∉ cs) : ∀ d ∈ cs, (d != c) = true :=
  fun _ hd => bne_iff_ne.2 (ne_of_mem_of_not_mem hd h)

theorem takeWhile_of_stop {p : Char → Bool} (cs rest : List Char) (hcs : ∀ c ∈ cs, p c = true)
    (hrest : ∀ c ∈ rest.head?, p c = false) : (cs ++ rest).takeWhile p = cs ∧ (cs ++ rest).dropWhile p = rest := by
  rw [List.takeWhile_append_of_pos hcs, List.dropWhile_append_of_pos hcs]
  cases rest with
  | nil => simp
  | cons c rest => simp [hrest c rfl]

theorem firstAt_eq_none {α : Type} {f : List Char → Option α} : ∀ {cs : List Char}, (∀ ds, ds <:+ cs → f ds = none) →
    firstAt f cs = none
  | [], h => h [] List.suffix_rfl
  | c :: cs, h => by
    have ih : firstAt f cs = none := firstAt_eq_none fun ds hds => h ds (hds.trans (List.suffix_cons c cs))
    rw [firstAt, h (c :: cs) List.suffix_rfl, ih]
    rfl

/-- What is read where nothing was read before. -/
theorem firstAt_append {α : Type} {f : List Char → Option α} {rest : List Char} {x : α} (hrest : f rest = some x) :
    ∀ {front : List Char}, (∀ ds, ds ≠ [] → ds <:+ front → f (ds ++ rest) = none) → firstAt f (front ++ rest) = some x
  | [], _ => by cases rest <;> simp [firstAt, hrest]
  | c :: front, h => by
    have ih : firstAt f (front ++ rest) = some x :=
      firstAt_append hrest fun ds hne hds => h ds hne (hds.trans (List.suffix_cons c front))
    have hfirst : f (c :: (front ++ rest)) = none := h (c :: front) (List.cons_ne_nil c front) List.suffix_rfl
    rw [List.cons_append, firstAt, hfirst, ih]
    rfl

/-! ### Percent escapes -/

theorem Utf8.repair_cons {b : Nat} (hb : b < 0x80) (bs : List Nat) : repair (b :: bs) = Char.ofNat b :: repair bs := by
  rw [repair]
  simp [Lead.of?, hb, owed]

namespace Percent

theorem escapedBytes_cons {c : Char} (hc : c ≠ '%') : ∀ cs, escapedBytes (c :: cs) = c.toNat :: escapedBytes cs
  | [] => rfl
  | [_] => rfl
  | _ :: _ :: _ => by simp [escapedBytes, hc]

/-- Characters that read alike whatever follows them do so behind other characters, too. -/
theorem decodeFrom_append {xs ys : List Char}
    (h : ∀ cs, Utf8.repair (escapedBytes (xs ++ cs)) = ys ++ Utf8.repair (escapedBytes cs)) :
    ∀ cs run : List Char, decodeFrom (run ++ xs.reverse) cs = ys ++ decodeFrom run cs
  | [], run => by simp [decodeFrom, h]
  | c :: cs, run => by
    unfold decodeFrom
    split
    · exact decodeFrom_append h cs (c :: run)
    · simp [h]

theorem decode_cons {c : Char} (hc : c ≠ '%') (cs : List Char) : decode (c :: cs) = c :: decode cs := by
  unfold decode
  rw [decodeFrom]
  split
  · next hascii =>
    have hread : ∀ ds, Utf8.repair (escapedBytes ([c] ++ ds)) = [c] ++ Utf8.repair (escapedBytes ds) := by
      intro ds
      rw [List.singleton_append, escapedBytes_cons hc, Utf8.repair_cons (by simpa [isAscii] using hascii),
        Char.ofNat_toNat]
      rfl
    exact decodeFrom_append hread cs []
  · simp [escapedBytes, Utf8.repair]

theorem decode_nil : decode [] = [] := by
  simp [decode, decodeFrom, escapedBytes, Utf8.repair]

theorem decode_append : ∀ {cs : List Char}, '%' ∉ cs → ∀ ds, decode (cs ++ ds) = cs ++ decode ds
  | [], _, _ => rfl
  | c :: cs, h, ds => by
    have hc : c ≠ '%' := (List.ne_of_not_mem_cons h).symm
    rw [List.cons_append, decode_cons hc, decode_append (List.not_mem_of_not_mem_cons h), List.cons_append]

theorem decode_of_not_mem {cs : List Char} (h : '%' ∉ cs) : decode cs = cs := by
  rw [← List.append_nil cs, decode_append h, decode_nil]

theorem decode_slash {f : Char} (hf : f = 'f' ∨ f = 'F') (cs : List Char) :
    decode ('%' :: '2' :: f :: cs) = '/' :: decode cs := by
  have hread : ∀ ds, Utf8.repair (escapedBytes (['%', '2', f] ++ ds)) = ['/'] ++ Utf8.repair (escapedBytes ds) := by
    intro ds
    have hbytes : escapedBytes (['%', '2', f] ++ ds) = 0x2f :: escapedBytes ds := by
      rcases hf with rfl | rfl <;> rfl
    rw [hbytes, Utf8.repair_cons (by decide)]
    rfl
  have hrun : decode ('%' :: '2' :: f :: cs) = decodeFrom ([] ++ ['%', '2', f].reverse) cs := by
    rcases hf with rfl | rfl <;> rfl
  rw [hrun, decodeFrom_append hread]
  rfl

end Percent

end Text

namespace Package

open Text

/-! ### Names in messages -/

/-- No blank, and nothing by which a name is ended or written otherwise in one of the ways to complain. -/
def isNamely (c : Char) : Bool :=
  !(isBlank c || ['/', '@', '\'', '"', '%', ':'].contains c)

/-- A part of a name, a scope or what stands behind it. -/
structure Part (cs : List Char) : Prop where
  nonempty : cs ≠ []
  namely : ∀ c ∈ cs, isNamely c = true

/-- A name as a package can have it, with a scope or without. -/
inductive Regular : List Char → Prop where
  | alone {base : List Char} (hbase : Part base) (hdot : base.head? ≠ some '.') : Regular base
  | within {scope base : List Char} (hscope : Part scope) (hbase : Part base) : Regular ('@' :: (scope ++ '/' :: base))

/-- Nothing, or something that begins with a mark and doesn't hold what would end it. -/
inductive Addition (mark stop : Char) : List Char → Prop where
  | none : Addition mark stop []
  | some {cs : List Char} (hstop : stop ∉ cs) : Addition mark stop (mark :: cs)

theorem isNamely_iff {c : Char} : isNamely c = true ↔
    isBlank c = false ∧ c ≠ '/' ∧ c ≠ '@' ∧ c ≠ '\'' ∧ c ≠ '"' ∧ c ≠ '%' ∧ c ≠ ':' := by
  simp [isNamely]

theorem Part.notMem {cs : List Char} (h : Part cs) {c : Char} (hc : isNamely c = false) : c ∉ cs := fun hmem => by
  simp [h.namely c hmem] at hc

theorem Part.ne_at_cons {cs : List Char} (h : Part cs) (ds : List Char) : cs ≠ '@' :: ds := fun heq =>
  h.notMem (c := '@') (by decide) (by simp [heq])

namespace Offender

/-! ### What the shapes read -/

/-- A scope is what is read before the rest of a name, if there is one. -/
theorem spanScope_regular {p : Char → Bool} (hpart : ∀ c, isNamely c = true → p c = true)
    (hslash : p '/' = false) {name : List Char} (hname : Regular name) (rest : List Char) : ∃ scope base,
    name = scope ++ base ∧ Part base ∧ spanScope p (name ++ rest) = (scope, base ++ rest) := by
  cases hname with
  | alone hbase hdot =>
    refine ⟨[], name, rfl, hbase, ?_⟩
    obtain ⟨c, cs, rfl⟩ := List.exists_cons_of_ne_nil hbase.nonempty
    unfold spanScope
    split
    · next heq => exact absurd (congrArg (· :: cs) (List.cons.inj heq).1) (hbase.ne_at_cons cs)
    · rfl
  | @within scope base hscope hbase =>
    refine ⟨'@' :: scope ++ ['/'], base, by simp, hbase, ?_⟩
    obtain ⟨hread, hleft⟩ := takeWhile_of_stop (p := p) scope ('/' :: (base ++ rest))
      (fun c hc => hpart c (hscope.namely c hc)) (by simpa using hslash)
    obtain ⟨c, cs, rfl⟩ := List.exists_cons_of_ne_nil hscope.nonempty
    unfold spanScope
    rw [List.cons_append]
    simp only [List.append_assoc, List.cons_append] at hread hleft ⊢
    rw [hread, hleft]
    rfl

/-- What is read as a scope is taken off, and is made of what a scope is made of. -/
theorem spanScope_eq {isPart : Char → Bool} {cs scope rest : List Char} (h : spanScope isPart cs = (scope, rest)) :
    cs = scope ++ rest ∧ ∀ c ∈ scope, c = '@' ∨ c = '/' ∨ isPart c = true := by
  unfold spanScope at h
  split at h
  · next after =>
    split at h
    · cases h
      exact ⟨rfl, by simp⟩
    · next hafter _ =>
      cases h
      have hsplit := List.takeWhile_append_dropWhile (p := isPart) (l := after)
      rw [hafter] at hsplit
      refine ⟨by simp [hsplit], fun c hc => ?_⟩
      rw [List.mem_append, List.mem_cons, List.mem_singleton] at hc
      exact hc.elim (fun hc => hc.imp_right fun hc => .inr (List.mem_takeWhile_imp hc)) fun hc => .inr (.inl hc)
    · cases h
      exact ⟨rfl, by simp⟩
  · cases h
    exact ⟨rfl, by simp⟩

theorem enclosed_eq_some {lead : String} {quote : Char} {cs x : List Char} (h : enclosed lead quote cs = some x) :
    lead.toList <+: cs := by
  obtain ⟨rest, hrest, -⟩ := Option.bind_eq_some_iff.1 h
  exact ⟨rest, (after?_eq_some_iff.1 hrest).symm⟩

theorem enclosed_append (lead : String) {quote : Char} {body : List Char} (hbody : body ≠ []) (hquote : quote ∉ body)
    (rest : List Char) : enclosed lead quote (lead.toList ++ (body ++ quote :: rest)) = some body := by
  obtain ⟨hread, hleft⟩ := takeWhile_of_stop body (quote :: rest) (bne_of_not_mem hquote) (by simp)
  obtain ⟨c, cs, rfl⟩ := List.exists_cons_of_ne_nil hbody
  unfold enclosed
  rw [after?_eq_some_iff.2 rfl, Option.bind_eq_bind, Option.bind_some, hread, hleft]

theorem unfetched_eq_some {cs x : List Char} (h : unfetched cs = some x) :
    "404 Not Found - GET ".toList <+: cs := by
  obtain ⟨rest, hrest, -⟩ := Option.bind_eq_some_iff.1 h
  have hlead : "404 Not Found - GET ".toList <+: "404 Not Found - GET http".toList := by decide
  exact hlead.trans ⟨rest, (after?_eq_some_iff.1 hrest).symm⟩

theorem unversioned_eq_some {cs x : List Char} (h : unversioned cs = some x) :
    "No matching version found for ".toList <+: cs := by
  obtain ⟨rest, hrest, -⟩ := Option.bind_eq_some_iff.1 h
  exact ⟨rest, (after?_eq_some_iff.1 hrest).symm⟩

theorem unversioned_append {name : List Char} (hname : Regular name) (rest : List Char) :
    unversioned ("No matching version found for ".toList ++ (name ++ '@' :: rest)) = some name := by
  obtain ⟨scope, base, rfl, hbase, hscope⟩ := spanScope_regular (p := fun c => c != '/' && !isBlank c)
    (fun c hc => by simp [isNamely_iff.1 hc]) (by decide) hname ('@' :: rest)
  obtain ⟨hread, hleft⟩ := takeWhile_of_stop (p := fun c => c != '@' && !isBlank c) base ('@' :: rest)
    (fun c hc => by simp [isNamely_iff.1 (hbase.namely c hc)]) (by simp)
  obtain ⟨c, cs, rfl⟩ := List.exists_cons_of_ne_nil hbase.nonempty
  unfold unversioned
  rw [after?_eq_some_iff.2 rfl, Option.bind_eq_bind, Option.bind_some, hscope]
  dsimp only
  rw [hread, hleft]
  rfl

/-- The name in quotes and its version hold no other quote. -/
theorem unlisted_eq_some {cs x : List Char} (h : unlisted cs = some x) : ∃ quoted lead rest,
    (lead = "' is not in this registry".toList ∨ lead = "' is not in the npm registry".toList) ∧
    cs = '\'' :: (quoted ++ (lead ++ rest)) ∧ '\'' ∉ quoted := by
  unfold unlisted at h
  obtain ⟨inner, hinner, h⟩ := Option.bind_eq_some_iff.1 h
  obtain ⟨scope, after, hspan⟩ : ∃ scope after,
    spanScope (fun c => c != '/' && c != '\'' && !isBlank c) inner = (scope, after) := ⟨_, _, rfl⟩
  obtain ⟨hscope, hin⟩ := spanScope_eq hspan
  simp only [hspan] at h
  generalize hpart : (fun c => c != '@' && c != '\'' && !isBlank c) = isPart at h
  obtain ⟨version, hversion, hquote⟩ : ∃ version,
      after.dropWhile isPart = version ++ (if "@".toList.isPrefixOf (after.dropWhile isPart) = true then
        (after.dropWhile isPart).dropWhile (· != '\'') else after.dropWhile isPart) ∧ '\'' ∉ version := by
    split
    · exact ⟨_, (List.takeWhile_append_dropWhile ..).symm, fun hmem => by simpa using List.mem_takeWhile_imp hmem⟩
    · exact ⟨[], rfl, by simp⟩
  split at h
  · cases h
  obtain ⟨r₁, h₁, h⟩ := Option.bind_eq_some_iff.1 h
  obtain ⟨r₂, h₂, h⟩ := Option.bind_eq_some_iff.1 h
  obtain ⟨r₃, h₃, -⟩ := Option.bind_eq_some_iff.1 h
  rw [after?_eq_some_iff.1 h₁] at hversion
  have hafter : after = after.takeWhile isPart ++ (version ++ ("' is not in ".toList ++ r₁)) := by
    rw [← hversion, List.takeWhile_append_dropWhile]
  have hwhole : cs = '\'' :: ((scope ++ after.takeWhile isPart ++ version) ++ ("' is not in ".toList ++ r₁)) := by
    rw [List.append_assoc, List.append_assoc, ← hafter, ← hscope]
    exact after?_eq_some_iff.1 hinner
  have hnone : '\'' ∉ scope ++ after.takeWhile isPart ++ version := by
    subst hpart
    rw [List.mem_append, List.mem_append]
    rintro ((hmem | hmem) | hmem)
    · simpa using hin _ hmem
    · simpa using List.mem_takeWhile_imp hmem
    · exact hquote hmem
  have hlead : ∀ place : String, "' is not in ".toList ++ (place.toList ++ (" registry".toList ++ r₃)) =
      ("' is not in " ++ place ++ " registry").toList ++ r₃ := by
    simp
  rcases Option.or_eq_some_iff.1 h₂ with h₂ | ⟨-, h₂⟩
  · rw [after?_eq_some_iff.1 h₂, after?_eq_some_iff.1 h₃, hlead] at hwhole
    exact ⟨_, _, r₃, .inl (by decide), hwhole, hnone⟩
  · rw [after?_eq_some_iff.1 h₂, after?_eq_some_iff.1 h₃, hlead] at hwhole
    exact ⟨_, _, r₃, .inr (by decide), hwhole, hnone⟩

theorem unlisted_append {name version lead : List Char} (hname : Regular name) (hversion : Addition '@' '\'' version)
    (hlead : lead = "' is not in this registry".toList ∨ lead = "' is not in the npm registry".toList)
    (rest : List Char) : unlisted ('\'' :: (name ++ version ++ (lead ++ rest))) = some name := by
  obtain ⟨tail, htail⟩ : ∃ tail, lead ++ rest = '\'' :: tail := by
    rcases hlead with rfl | rfl <;> exact ⟨_, rfl⟩
  obtain ⟨scope, base, rfl, hbase, hscope⟩ := spanScope_regular
    (p := fun c => c != '/' && c != '\'' && !isBlank c) (fun c hc => by simp [isNamely_iff.1 hc]) (by decide) hname
    (version ++ (lead ++ rest))
  obtain ⟨hread, hleft⟩ := takeWhile_of_stop (p := fun c => c != '@' && c != '\'' && !isBlank c) base
    (version ++ (lead ++ rest)) (fun c hc => by simp [isNamely_iff.1 (hbase.namely c hc)])
    (by cases hversion <;> simp [htail])
  have hversion : (if "@".toList.isPrefixOf (version ++ (lead ++ rest)) = true then
      (version ++ (lead ++ rest)).dropWhile (· != '\'') else version ++ (lead ++ rest)) = lead ++ rest := by
    cases hversion with
    | none => rw [if_neg (by simp [htail])]; rfl
    | @some v hstop =>
      have hquote : '\'' ∉ '@' :: v := List.not_mem_cons_of_ne_of_not_mem (by decide) hstop
      rw [if_pos (by simp)]
      exact (takeWhile_of_stop _ _ (bne_of_not_mem hquote) (by simp [htail])).2
  have hending : (after? "' is not in ".toList (lead ++ rest)).bind (fun cs =>
      ((after? "this".toList cs).or (after? "the npm".toList cs)).bind fun cs =>
        (after? " registry".toList cs).bind fun _ => some (scope ++ base)) = some (scope ++ base) := by
    rcases hlead with rfl | rfl <;> rfl
  have hne : base.isEmpty = false := by simpa using hbase.nonempty
  unfold unlisted
  rw [after?_eq_some_iff.2 (List.singleton_append ..), Option.bind_eq_bind, Option.bind_some, List.append_eq,
    List.append_assoc _ version, hscope]
  dsimp only
  rw [hread, hleft, hversion, hne]
  exact hending

/-! ### Addresses -/

theorem lastSegment_append {segment : List Char} (h : '/' ∉ segment) (host : List Char) :
    lastSegment (host ++ '/' :: segment) = (segment, host) := by
  have hne : '/' ∉ segment.reverse := by simpa using h
  obtain ⟨hread, hleft⟩ := takeWhile_of_stop segment.reverse ('/' :: host.reverse) (bne_of_not_mem hne) (by simp)
  unfold lastSegment
  simp [hread, hleft]

theorem holdsEscapedSlash_append {f : Char} (hf : f = 'f' ∨ f = 'F') {base : List Char} (hbase : base ≠ []) :
    ∀ {scope : List Char}, scope ≠ [] → '%' ∉ scope → holdsEscapedSlash (scope ++ '%' :: '2' :: f :: base) = true
  | [], hne, _ => absurd rfl hne
  | [c], _, _ => by
    obtain ⟨b, cs, rfl⟩ := List.exists_cons_of_ne_nil hbase
    rcases hf with rfl | rfl <;> simp [holdsEscapedSlash]
  | c :: d :: scope, _, hescape => by
    have hescape := List.not_mem_of_not_mem_cons hescape
    have ih := holdsEscapedSlash_append hf hbase (List.cons_ne_nil d scope) hescape
    rw [List.cons_append]
    unfold holdsEscapedSlash
    split
    · next heq =>
      obtain ⟨-, heq⟩ := List.cons.inj heq
      exact absurd (List.cons.inj heq).1 (List.ne_of_not_mem_cons hescape).symm
    · next heq =>
      rw [(List.cons.inj heq).2.symm]
      exact ih
    · next heq => nomatch heq

/-- How a name is written in an address. -/
inductive Spelled : List Char → List Char → Prop where
  | alone {base : List Char} (hbase : Part base) (hdot : base.head? ≠ some '.') : Spelled base base
  | within {scope base : List Char} {f : Char} (hscope : Part scope) (hbase : Part base) (hf : f = 'f' ∨ f = 'F') :
    Spelled ('@' :: (scope ++ '/' :: base)) ('@' :: (scope ++ '%' :: '2' :: f :: base))

theorem Spelled.regular {name spelled : List Char} (h : Spelled name spelled) : Regular name := by
  cases h with
  | alone hbase hdot => exact .alone hbase hdot
  | within hscope hbase hf => exact .within hscope hbase

theorem Spelled.decode {name spelled : List Char} (h : Spelled name spelled) : Percent.decode spelled = name := by
  have hpart : ∀ {cs}, Part cs → '%' ∉ cs := fun hcs => hcs.notMem (by decide)
  cases h with
  | alone hbase hdot => exact Percent.decode_of_not_mem (hpart hbase)
  | within hscope hbase hf =>
    rw [Percent.decode_cons (by decide), Percent.decode_append (hpart hscope), Percent.decode_slash hf,
      Percent.decode_of_not_mem (hpart hbase)]

theorem Spelled.mem {name spelled : List Char} (h : Spelled name spelled) :
    ∀ c ∈ spelled, isBlank c = false ∧ c ≠ '/' := by
  intro c hc
  have hpart : ∀ {cs}, Part cs → c ∈ cs → isBlank c = false ∧ c ≠ '/' := fun hcs hc =>
    ⟨(isNamely_iff.1 (hcs.namely c hc)).1, (isNamely_iff.1 (hcs.namely c hc)).2.1⟩
  cases h with
  | alone hbase hdot => exact hpart hbase hc
  | @within scope base f hscope hbase hf =>
    simp only [List.mem_cons, List.mem_append] at hc
    rcases hc with rfl | hc | rfl | rfl | rfl | hc
    · decide
    · exact hpart hscope hc
    · decide
    · decide
    · rcases hf with rfl | rfl <;> decide
    · exact hpart hbase hc

theorem unfetched_append {name spelled scheme host back : List Char} (hspelled : Spelled name spelled)
    (hscheme : scheme = "http://".toList ∨ scheme = "https://".toList) (hhost : host ≠ [])
    (hword : ∀ c ∈ host, isBlank c = false) (hback : ∀ c ∈ back.head?, isBlank c = true) :
    unfetched ("404 Not Found - GET ".toList ++ (scheme ++ (host ++ '/' :: spelled ++ back))) = some spelled := by
  obtain ⟨rest, hget, hrest⟩ : ∃ rest, after? "404 Not Found - GET http".toList
        ("404 Not Found - GET ".toList ++ (scheme ++ (host ++ '/' :: spelled ++ back))) = some rest ∧
      (after? "s://".toList rest).or (after? "://".toList rest) = some (host ++ '/' :: spelled ++ back) := by
    rcases hscheme with rfl | rfl <;> exact ⟨_, rfl, rfl⟩
  have hspan : (spanWord (host ++ '/' :: spelled ++ back)).1 = host ++ '/' :: spelled := by
    unfold spanWord
    rw [List.span_eq_takeWhile_dropWhile]
    refine (takeWhile_of_stop _ _ (fun c hc => ?_) fun c hc => by simp [hback c hc]).1
    rw [List.mem_append, List.mem_cons] at hc
    rcases hc with hc | rfl | hc
    · simp [hword c hc]
    · decide
    · simp [(hspelled.mem c hc).1]
  unfold unfetched
  rw [hget, Option.bind_eq_bind, Option.bind_some, hrest]
  simp only [Option.bind_some, hspan, lastSegment_append (fun h => (hspelled.mem _ h).2 rfl)]
  rw [if_neg (by simpa using hhost)]
  cases hspelled with
  | alone hbase hdot =>
    split
    · exact absurd rfl hbase.nonempty
    · exact absurd rfl (hbase.ne_at_cons _)
    · rfl
  | within hscope hbase hf =>
    exact if_pos (holdsEscapedSlash_append hf hbase.nonempty hscope.nonempty (hscope.notMem (by decide)))

end Offender

/-! ### Names of regular names -/

theorem Regular.mem {name : List Char} (h : Regular name) :
    ∀ c ∈ name, c = '@' ∨ c = '/' ∨ isNamely c = true := by
  intro c hc
  cases h with
  | alone hbase hdot => exact .inr (.inr (hbase.namely c hc))
  | within hscope hbase =>
    rw [List.mem_cons, List.mem_append, List.mem_cons] at hc
    rcases hc with hc | hc | hc | hc
    · exact .inl hc
    · exact .inr (.inr (hscope.namely c hc))
    · exact .inr (.inl hc)
    · exact .inr (.inr (hbase.namely c hc))

theorem Regular.not_blank {name : List Char} (h : Regular name) : ∀ c ∈ name, isBlank c = false := by
  intro c hc
  rcases h.mem c hc with rfl | rfl | hnamely
  · decide
  · decide
  · exact (isNamely_iff.1 hnamely).1

theorem Regular.percent_not_mem {name : List Char} (h : Regular name) : '%' ∉ name := fun hmem => by
  rcases h.mem _ hmem with heq | heq | hnamely
  · nomatch heq
  · nomatch heq
  · nomatch hnamely

theorem Regular.exists_cons {name : List Char} (h : Regular name) : ∃ c cs, name = c :: cs ∧ c ≠ '.' ∧ c ≠ '/' := by
  cases h with
  | alone hbase hdot =>
    obtain ⟨c, cs, rfl⟩ := List.exists_cons_of_ne_nil hbase.nonempty
    exact ⟨c, cs, rfl, fun heq => hdot (by simp [heq]), (isNamely_iff.1 (hbase.namely c (by simp))).2.1⟩
  | within hscope hbase => exact ⟨_, _, rfl, by decide, by decide⟩

/-- What stands behind a name is nothing or a path. -/
def IsPath (rest : List Char) : Prop :=
  rest = [] ∨ ∃ more, rest = '/' :: more

theorem IsPath.trimRight {rest : List Char} (h : IsPath rest) : IsPath (trimRight rest) := by
  rcases h with rfl | ⟨more, rfl⟩
  · exact .inl rfl
  · rw [← List.nil_append ('/' :: more), trimRight_append_cons [] more (by decide)]
    exact .inr ⟨_, rfl⟩

theorem trim_regular {name : List Char} (hname : Regular name) (rest : List Char) :
    trim (name ++ rest) = name ++ trimRight rest := by
  obtain ⟨c, cs, rfl, -, -⟩ := hname.exists_cons
  have hleft : trimLeft (c :: cs ++ rest) = c :: cs ++ rest := trimLeft_cons (hname.not_blank c (by simp)) _
  have hlast := (List.dropLast_append_getLast (List.cons_ne_nil c cs)).symm
  have hblank := hname.not_blank _ (List.getLast_mem (List.cons_ne_nil c cs))
  unfold trim
  rw [hleft, hlast, List.append_assoc, List.singleton_append, trimRight_append_cons _ _ hblank]
  simp

theorem toLower_eq_colon {c : Char} (h : c.toLower = ':') : c = ':' := by
  unfold Char.toLower at h
  split at h
  · next hupper =>
    have hsum : (c.val + 32).toNat = 58 := congrArg Char.toNat h
    have hlow : 65 ≤ c.val.toNat := UInt32.le_iff_toNat_le.1 hupper.1
    have hhigh : c.val.toNat ≤ 90 := UInt32.le_iff_toNat_le.1 hupper.2
    rw [UInt32.toNat_add, show (32 : UInt32).toNat = 32 from rfl] at hsum
    omega
  · exact h

theorem not_scheme {name rest scheme : List Char} (hname : Regular name) (hrest : IsPath rest)
    (hscheme : scheme ∈ schemes) : ¬ scheme <+: (name ++ rest).map Char.toLower := by
  have hends : ∀ scheme ∈ schemes, ':' ∈ scheme ∧ '/' ∉ scheme := by decide
  obtain ⟨hcolon, hslash⟩ := hends scheme hscheme
  have hnone : ':' ∉ name.map Char.toLower := by
    intro hmem
    obtain ⟨c, hc, hlower⟩ := List.mem_map.1 hmem
    rcases hname.mem c hc with rfl | rfl | hnamely
    · nomatch toLower_eq_colon hlower
    · nomatch toLower_eq_colon hlower
    · exact (isNamely_iff.1 hnamely).2.2.2.2.2.2 (toLower_eq_colon hlower)
  rw [List.map_append]
  intro hbegins
  rcases List.prefix_or_prefix_of_prefix hbegins (List.prefix_append _ _) with hinside | ⟨more, hmore⟩
  · exact hnone (hinside.subset hcolon)
  · rw [← hmore, List.prefix_append_right_inj] at hbegins
    rw [← hmore, List.mem_append] at hcolon
    -- what is left of the scheme is not empty, and so it begins as the path does
    have hleft := hcolon.resolve_left hnone
    rcases hrest with rfl | ⟨path, rfl⟩
    · simp [List.prefix_nil.1 hbegins] at hleft
    · cases more with
      | nil => simp at hleft
      | cons c more =>
        obtain ⟨rfl, -⟩ := List.cons_prefix_cons.1 hbegins
        exact hslash (hmore ▸ by simp)

theorem isBareChars_regular {name rest : List Char} (hname : Regular name) (hrest : IsPath rest) :
    isBareChars (name ++ rest) = true := by
  have hschemes : (schemes.any fun scheme => scheme.isPrefixOf ((name ++ rest).map Char.toLower)) = false :=
    List.any_eq_false.2 fun scheme hscheme hbegins =>
      not_scheme hname hrest hscheme (List.isPrefixOf_iff_prefix.1 hbegins)
  obtain ⟨c, cs, rfl, hdot, hslash⟩ := hname.exists_cons
  unfold isBareChars
  rw [hschemes]
  simp [List.isPrefixOf, Ne.symm hdot, Ne.symm hslash]

theorem Regular.whole {name : List Char} (h : Regular name) : Whole name := by
  cases h with
  | alone hbase hdot =>
    refine ⟨.plain (hbase.notMem (by decide)) (hbase.notMem (by decide)), hbase.nonempty, fun hat => ?_⟩
    exact absurd (List.mem_of_mem_head? hat) (hbase.notMem (by decide))
  | within hscope hbase =>
    refine ⟨.within (hscope.notMem ?_) (hscope.notMem ?_) (hbase.notMem ?_) (hbase.notMem ?_), by simp, by simp⟩
    all_goals decide

theorem IsPath.cut {rest : List Char} (h : IsPath rest) : Cut rest := by
  rcases h with rfl | ⟨more, rfl⟩
  · exact .nil
  · exact .cons (.inr rfl) more

theorem nameOf_regular {name rest : List Char} (hname : Regular name) (hrest : IsPath rest) :
    isBare (String.ofList (name ++ rest)) = .ok true ∧
    nameOf (String.ofList (name ++ rest)) = .ok (String.ofList name) := by
  have htrim := trim_regular hname rest
  have hne : name ++ trimRight rest ≠ [] := by
    obtain ⟨c, cs, rfl, -, -⟩ := hname.exists_cons
    simp
  constructor
  · have hspecifier : specifier (String.ofList (name ++ rest)) = .ok (name ++ trimRight rest) := by
      rw [specifier_of_not_blank, String.toList_ofList, htrim]
      simpa [allBlank, htrim] using hne
    unfold isBare
    rw [hspecifier]
    exact congrArg Except.ok (isBareChars_regular hname hrest.trimRight)
  · rw [nameOf_eq_ok_iff, String.toList_ofList, htrim]
    exact ⟨hne, by rw [hname.whole.nameChars_append hrest.trimRight.cut]⟩

/-! ### Names of bare specifiers -/

theorem isBareChars_of_prefix {cs ds : List Char} (h : ds <+: cs) (hbare : isBareChars cs = true) :
    isBareChars ds = true := by
  have hextend : ∀ {pat : List Char}, pat.isPrefixOf ds = true → pat.isPrefixOf cs = true := fun hpat =>
    List.isPrefixOf_iff_prefix.2 ((List.isPrefixOf_iff_prefix.1 hpat).trans h)
  have hlower : ∀ {pat : List Char}, pat.isPrefixOf (ds.map Char.toLower) = true →
      pat.isPrefixOf (cs.map Char.toLower) = true := fun hpat =>
    List.isPrefixOf_iff_prefix.2 ((List.isPrefixOf_iff_prefix.1 hpat).trans (h.map Char.toLower))
  unfold isBareChars at hbare ⊢
  rw [Bool.and_eq_true, Bool.not_eq_true', Bool.not_eq_true', Bool.or_eq_false_iff, List.any_eq_false] at hbare ⊢
  obtain ⟨⟨hdot, hslash⟩, hschemes⟩ := hbare
  refine ⟨⟨?_, ?_⟩, fun scheme hscheme hbegins => hschemes scheme hscheme (hlower hbegins)⟩
  · exact Bool.eq_false_iff.2 fun hbegins => Bool.eq_false_iff.1 hdot (hextend hbegins)
  · exact Bool.eq_false_iff.2 fun hbegins => Bool.eq_false_iff.1 hslash (hextend hbegins)

theorem isBare_of_blank {s : String} (hs : allBlank s = true) : isBare s = .error .specifierBlank := by
  unfold isBare specifier
  rw [List.isEmpty_iff.1 hs]
  rfl

theorem isBare_of_not_blank {s : String} (hs : allBlank s = false) : isBare s = .ok (isBareChars (trim s.toList)) := by
  unfold isBare
  rw [specifier_of_not_blank hs]
  rfl

/-- The name of a specifier of a package is one itself. It is its own name but for blanks at its end. -/
theorem nameOf_of_bare {s n : String} (hbare : isBare s = .ok true) (hname : nameOf s = .ok n) :
    isBare n = .ok true ∧ nameOf n = .ok (trimmed n) ∧
      (nameOf n = .ok n ↔ ∀ c ∈ n.toList.getLast?, isBlank c = false) := by
  obtain ⟨m, hm, -, hself, hiff⟩ := (nameable_of_bare hbare).exists_nameOf
  obtain rfl : m = n := Except.ok.inj (hm.symm.trans hname)
  refine ⟨isBare_eq_ok_true.2 ⟨(nameOf_eq_ok_iff.1 hself).1, ?_⟩, hself, hiff.trans not_blankAtEnd_iff⟩
  obtain ⟨c, hc, hslash⟩ := nameable_of_bare hbare
  obtain ⟨-, rfl⟩ := nameOf_eq_ok_iff.1 hm
  obtain ⟨r, hr⟩ := List.head?_eq_some_iff.1 (head?_nameChars_of_ne hc hslash)
  obtain ⟨rest, hrest, -⟩ := exists_cut (trim s.toList)
  have hbegins : trim (nameChars (trim s.toList)) <+: nameChars (trim s.toList) := by
    rw [hr, trim_cons (not_blank_of_head?_trim hc)]
    exact List.cons_prefix_cons.2 ⟨rfl, List.rdropWhile_prefix isBlank r⟩
  rw [String.toList_ofList]
  exact isBareChars_of_prefix (hbegins.trans ⟨rest, hrest.symm⟩) (isBare_eq_ok_true.1 hbare).2

namespace Offender

/-! ### One lead-in in a text -/

/-- The texts by which the ways to complain are known. -/
def leads : List (List Char) :=
  ["Could not resolve \"", "Cannot find module '", "' is not in this registry", "' is not in the npm registry",
    "404 Not Found - GET ", "No matching version found for "].map String.toList

/-- The shapes, each with the texts it's known by. -/
def known : List ((List Char → Option (List Char)) × List (List Char)) :=
  [(enclosed "Could not resolve \"" '"', ["Could not resolve \"".toList]),
    (enclosed "Cannot find module '" '\'', ["Cannot find module '".toList]),
    (unlisted, ["' is not in this registry".toList, "' is not in the npm registry".toList]),
    (unfetched, ["404 Not Found - GET ".toList]),
    (unversioned, ["No matching version found for ".toList])]

theorem mem_leads_of_known : ∀ way ∈ known, ∀ l ∈ way.2, l ∈ leads := by decide

theorem infix_of_known : ∀ way ∈ known, ∀ cs x, way.1 cs = some x → ∃ l ∈ way.2, l <:+: cs := by
  have hbegins : ∀ {l cs : List Char}, l <+: cs → ∃ l' ∈ [l], l' <:+: cs := fun h =>
    ⟨_, List.mem_singleton_self _, h.isInfix⟩
  simp only [known, List.forall_mem_cons]
  refine ⟨fun cs x h => hbegins (enclosed_eq_some h), fun cs x h => hbegins (enclosed_eq_some h), fun cs x h => ?_,
    fun cs x h => hbegins (unfetched_eq_some h), fun cs x h => hbegins (unversioned_eq_some h), nofun⟩
  obtain ⟨quoted, l, rest, hl, rfl, -⟩ := unlisted_eq_some h
  exact ⟨l, List.mem_pair.2 hl, '\'' :: quoted, rest, by simp⟩

/-- The lead-in stands in the text behind `front`, and nowhere else, nor does any other. -/
def Sole (text front lead : List Char) : Prop :=
  ∀ l ∈ leads, ∀ x y, text = x ++ (l ++ y) → x = front ∧ l = lead

theorem sole_iff {text front lead : List Char} : Sole text front lead ↔
    ∀ l ∈ leads, ∀ i ∈ List.range (text.length + 1), l <+: text.drop i → text.take i = front ∧ l = lead := by
  constructor
  · rintro h l hl i - ⟨y, hy⟩
    exact h l hl _ y (by rw [hy, List.take_append_drop])
  · rintro h l hl x y rfl
    have hbegins : l <+: (x ++ (l ++ y)).drop x.length := by
      rw [List.drop_left]
      exact List.prefix_append l y
    simpa using h l hl x.length (List.mem_range.2 (Nat.lt_succ_of_le (by simp))) hbegins

instance (text front lead : List Char) : Decidable (Sole text front lead) :=
  decidable_of_iff _ sole_iff.symm

section Sole

variable {f : List Char → Option (List Char)} {text front lead back found : List Char}

/-- A shape with another lead-in fits nowhere. -/
theorem firstAt_of_other (hsole : Sole text front lead) {others : List (List Char)}
    (hf : ∀ cs x, f cs = some x → ∃ l ∈ others, l <:+: cs) (hother : ∀ l ∈ others, l ∈ leads ∧ l ≠ lead) :
    firstAt f text = none := by
  refine firstAt_eq_none fun ds hds => ?_
  cases hread : f ds with
  | none => rfl
  | some x =>
    obtain ⟨l, hl, hinfix⟩ := hf ds x hread
    obtain ⟨before, after, hsplit⟩ := hinfix.trans hds.isInfix
    rw [List.append_assoc] at hsplit
    exact absurd (hsole l (hother l hl).1 before after hsplit.symm).2 (hother l hl).2

/-- A shape that begins with the lead-in fits behind `front` first. -/
theorem firstAt_of_lead (hsole : Sole (front ++ (lead ++ back)) front lead) (hlead : lead ∈ leads)
    (hf : ∀ cs x, f cs = some x → lead <+: cs) (hread : f (lead ++ back) = some found) :
    firstAt f (front ++ (lead ++ back)) = some found := by
  refine firstAt_append hread fun ds hne hds => ?_
  cases hearly : f (ds ++ (lead ++ back)) with
  | none => rfl
  | some x =>
    obtain ⟨before, rfl⟩ := hds
    obtain ⟨after, hafter⟩ := hf _ x hearly
    have hbefore := (hsole lead hlead before after (by rw [List.append_assoc, hafter])).1
    exact absurd (List.self_eq_append_right.1 hbefore) hne

/-- A shape that begins at a quote and goes on with the lead-in from the next quote fits at the last quote before the
lead-in first. -/
theorem firstAt_of_quote {quoted : List Char}
    (hsole : Sole (front ++ ('\'' :: (quoted ++ (lead ++ back)))) (front ++ '\'' :: quoted) lead)
    (hf : ∀ cs x, f cs = some x → ∃ quoted l rest, l ∈ leads ∧ cs = '\'' :: (quoted ++ (l ++ rest)) ∧ '\'' ∉ quoted)
    (hread : f ('\'' :: (quoted ++ (lead ++ back))) = some found) :
    firstAt f (front ++ ('\'' :: (quoted ++ (lead ++ back)))) = some found := by
  refine firstAt_append hread fun ds hne hds => ?_
  cases hearly : f (ds ++ ('\'' :: (quoted ++ (lead ++ back)))) with
  | none => rfl
  | some x =>
    obtain ⟨before, rfl⟩ := hds
    obtain ⟨quoted', l, rest, hl, hafter, hquote⟩ := hf _ x hearly
    have hbefore := (hsole l hl (before ++ '\'' :: quoted') rest (by rw [List.append_assoc, hafter]; simp)).1
    rw [List.append_assoc, List.append_cancel_left_eq] at hbefore
    -- the quote before the lead-in would be inside the quotes
    obtain ⟨c, ds, rfl⟩ := List.exists_cons_of_ne_nil hne
    obtain ⟨-, rfl⟩ := List.cons.inj hbefore
    simp at hquote

/-- The first shape of those that are known by the lead-in decides. -/
theorem findSome?_of_known (hsole : Sole text front lead) {i : Nat} (hi : i < known.length)
    (hbefore : ∀ way ∈ known.take i, lead ∉ way.2) (hread : firstAt known[i].1 text = some found) :
    shapes.findSome? (fun shape => firstAt shape text) = some found := by
  have hnone : ((known.take i).map Prod.fst).findSome? (fun shape => firstAt shape text) = none := by
    rw [List.findSome?_eq_none_iff]
    intro shape hshape
    obtain ⟨way, hway, rfl⟩ := List.mem_map.1 hshape
    have hknown := List.mem_of_mem_take hway
    exact firstAt_of_other hsole (infix_of_known way hknown) fun l hl =>
      ⟨mem_leads_of_known way hknown l hl, fun heq => hbefore way hway (heq ▸ hl)⟩
  have hshapes : shapes = known.map Prod.fst := rfl
  rw [hshapes, ← List.take_append_drop i known, List.map_append, List.findSome?_append, hnone, Option.none_or,
    List.drop_eq_getElem_cons hi, List.map_cons, List.findSome?_cons, hread]

end Sole

/-! ### Names that are found again -/

/-- The ways to complain about a package: what stands before the lead-in, the lead-in and what stands behind it. -/
inductive Complains (name : List Char) : List Char → List Char → List Char → Prop where
  | unresolved {front path rest : List Char} (hname : Regular name) (hpath : Addition '/' '"' path) :
    Complains name front "Could not resolve \"".toList (name ++ path ++ '"' :: rest)
  | notFound {front path rest : List Char} (hname : Regular name) (hpath : Addition '/' '\'' path) :
    Complains name front "Cannot find module '".toList (name ++ path ++ '\'' :: rest)
  | unlisted {front version lead rest : List Char} (hname : Regular name) (hversion : Addition '@' '\'' version)
    (hlead : lead = "' is not in this registry".toList ∨ lead = "' is not in the npm registry".toList) :
    Complains name (front ++ '\'' :: (name ++ version)) lead rest
  | unfetched {front spelled scheme host rest : List Char} (hname : Spelled name spelled)
    (hscheme : scheme = "http://".toList ∨ scheme = "https://".toList) (hhost : host ≠ [])
    (hword : ∀ c ∈ host, isBlank c = false) (hend : ∀ c ∈ rest.head?, isBlank c = true) :
    Complains name front "404 Not Found - GET ".toList (scheme ++ (host ++ '/' :: spelled ++ rest))
  | unversioned {front version : List Char} (hname : Regular name) :
    Complains name front "No matching version found for ".toList (name ++ '@' :: version)

theorem Complains.regular {name front lead back : List Char} (h : Complains name front lead back) : Regular name := by
  cases h with
  | unresolved hname hpath => exact hname
  | notFound hname hpath => exact hname
  | unlisted hname hversion hlead => exact hname
  | unfetched hname hscheme hhost hword hend => exact hname.regular
  | unversioned hname => exact hname

/-- A name that is read, with a path behind it perhaps, is the one that is found. -/
theorem nameIn_of_read {text : String} {read name path : List Char}
    (hread : shapes.findSome? (fun shape => firstAt shape text.toList) = some read) (hname : Regular name)
    (hpath : IsPath path) (hdecode : Percent.decode read = name ++ path) :
    nameIn text = .ok (some (String.ofList name)) := by
  have hspecifier : specifierIn? text = some (String.ofList (name ++ path)) := by
    unfold specifierIn?
    rw [hread, Option.map_some, hdecode]
  obtain ⟨hbare, hnameOf⟩ := nameOf_regular hname hpath
  unfold nameIn
  rw [hspecifier]
  dsimp only
  rw [hbare, hnameOf]
  rfl

/-- Between quotes stands a name with a path behind it, which stays one if it holds escapes. -/
theorem enclosed_regular (lead : String) {name path : List Char} {quote : Char} (hname : Regular name)
    (hpath : Addition '/' quote path) (hquote : quote ≠ '@' ∧ quote ≠ '/' ∧ isNamely quote = false)
    (rest : List Char) : enclosed lead quote (lead.toList ++ (name ++ path ++ quote :: rest)) = some (name ++ path) ∧
    ∃ more, IsPath more ∧ Percent.decode (name ++ path) = name ++ more := by
  have hinside : quote ∉ name := fun hmem => by
    rcases hname.mem quote hmem with heq | heq | hnamely
    · exact hquote.1 heq
    · exact hquote.2.1 heq
    · simp [hquote.2.2] at hnamely
  constructor
  · refine enclosed_append lead ?_ ?_ rest
    · obtain ⟨c, cs, rfl, -, -⟩ := hname.exists_cons
      simp
    · cases hpath with
      | none => simpa using hinside
      | some hstop => simp [hinside, hquote.2.1, hstop]
  · rw [Percent.decode_append hname.percent_not_mem]
    cases hpath with
    | none => exact ⟨[], .inl rfl, by rw [Percent.decode_nil]⟩
    | some hstop => exact ⟨_, .inr ⟨_, rfl⟩, by rw [Percent.decode_cons (by decide)]⟩

/-- What a message complains about is found in it, whatever stands around. -/
theorem nameIn_of_complains {text : String} {name front lead back : List Char} (h : Complains name front lead back)
    (htext : text.toList = front ++ (lead ++ back)) (hsole : Sole text.toList front lead) :
    nameIn text = .ok (some (String.ofList name)) := by
  have hread : ∃ read path, shapes.findSome? (fun shape => firstAt shape text.toList) = some read ∧ IsPath path ∧
      Percent.decode read = name ++ path := by
    rw [htext] at hsole ⊢
    cases h with
    | @unresolved front path rest hname hpath =>
      obtain ⟨hbody, more, hmore, hdecode⟩ := enclosed_regular "Could not resolve \"" hname hpath (by decide) rest
      have hread := firstAt_of_lead hsole (by decide) (fun _ _ => enclosed_eq_some) hbody
      exact ⟨_, more, findSome?_of_known hsole (i := 0) (by decide) (by decide) hread, hmore, hdecode⟩
    | @notFound front path rest hname hpath =>
      obtain ⟨hbody, more, hmore, hdecode⟩ := enclosed_regular "Cannot find module '" hname hpath (by decide) rest
      have hread := firstAt_of_lead hsole (by decide) (fun _ _ => enclosed_eq_some) hbody
      exact ⟨_, more, findSome?_of_known hsole (i := 1) (by decide) (by decide) hread, hmore, hdecode⟩
    | @unlisted front version _ _ hname hversion hlead =>
      have hbefore : ∀ way ∈ known.take 2, lead ∉ way.2 := by rcases hlead with rfl | rfl <;> decide
      have hleads : ∀ cs x, Offender.unlisted cs = some x →
          ∃ quoted l rest, l ∈ leads ∧ cs = '\'' :: (quoted ++ (l ++ rest)) ∧ '\'' ∉ quoted := by
        intro cs x h
        obtain ⟨quoted, l, rest, hl, hcs, hquote⟩ := unlisted_eq_some h
        exact ⟨quoted, l, rest, by rcases hl with rfl | rfl <;> decide, hcs, hquote⟩
      have hsplit : front ++ '\'' :: (name ++ version) ++ (lead ++ back) =
          front ++ ('\'' :: (name ++ version ++ (lead ++ back))) := by simp
      rw [hsplit] at hsole ⊢
      have hread := firstAt_of_quote hsole hleads (unlisted_append hname hversion hlead back)
      exact ⟨name, [], findSome?_of_known hsole (i := 2) (by decide) hbefore hread, .inl rfl,
        by rw [Percent.decode_of_not_mem hname.percent_not_mem, List.append_nil]⟩
    | unfetched hname hscheme hhost hword hend =>
      have hread := firstAt_of_lead hsole (by decide) (fun _ _ => unfetched_eq_some)
        (unfetched_append hname hscheme hhost hword hend)
      exact ⟨_, [], findSome?_of_known hsole (i := 3) (by decide) (by decide) hread, .inl rfl,
        by rw [hname.decode, List.append_nil]⟩
    | @unversioned front version hname =>
      have hread := firstAt_of_lead hsole (by decide) (fun _ _ => unversioned_eq_some)
        (unversioned_append hname version)
      exact ⟨name, [], findSome?_of_known hsole (i := 4) (by decide) (by decide) hread, .inl rfl,
        by rw [Percent.decode_of_not_mem hname.percent_not_mem, List.append_nil]⟩
  obtain ⟨read, path, hread, hpath, hdecode⟩ := hread
  exact nameIn_of_read hread h.regular hpath hdecode

/-- A name with a scope and a version, behind other names and something that looks like a lead-in. -/
theorem nameIn_of_complains_unlisted :
    nameIn "npm error 404 'left-pad' 'Cannot find module @x/y\n'@acme/ui@^1 || 2' is not in this registry." =
      .ok (some "@acme/ui") := by
  have hname : Regular ('@' :: ("acme".toList ++ '/' :: "ui".toList)) :=
    .within ⟨by decide, List.all_eq_true.1 (by decide)⟩ ⟨by decide, List.all_eq_true.1 (by decide)⟩
  have hversion : Addition '@' '\'' ('@' :: "^1 || 2".toList) := .some (by decide)
  have h : Complains ('@' :: ("acme".toList ++ '/' :: "ui".toList))
      ("npm error 404 'left-pad' 'Cannot find module @x/y\n".toList ++
        '\'' :: ('@' :: ("acme".toList ++ '/' :: "ui".toList) ++ '@' :: "^1 || 2".toList))
      "' is not in this registry".toList ".".toList := .unlisted hname hversion (.inl rfl)
  exact nameIn_of_complains h (by decide) (by decide +kernel)

/-! ### Texts of any kind -/

/-- What is found is the name of the specifier that is read, which is one of a package. -/
theorem nameIn_eq_some {text n : String} (h : nameIn text = .ok (some n)) :
    ∃ s, specifierIn? text = some s ∧ isBare s = .ok true ∧ nameOf s = .ok n := by
  unfold nameIn at h
  split at h
  · nomatch h
  · next s hs =>
    refine ⟨s, hs, ?_⟩
    cases hbare : isBare s with
    | error f => rw [hbare] at h; nomatch h
    | ok bare =>
      cases bare with
      | false => rw [hbare] at h; nomatch h
      | true =>
        cases hname : nameOf s with
        | error f => rw [hbare, hname] at h; nomatch h
        | ok m =>
          rw [hbare, hname] at h
          cases h
          exact ⟨rfl, rfl⟩

theorem nameIn_of_none {text : String} (h : specifierIn? text = none) : nameIn text = .ok none := by
  unfold nameIn
  rw [h]
  rfl

theorem nameIn_of_blank {text s : String} (h : specifierIn? text = some s) (hs : allBlank s = true) :
    nameIn text = .error .specifierBlank := by
  unfold nameIn
  rw [h]
  dsimp only
  rw [isBare_of_blank hs]
  rfl

theorem nameIn_of_not_blank {text s : String} (h : specifierIn? text = some s) (hs : allBlank s = false) :
    ∃ r, nameIn text = .ok r := by
  unfold nameIn
  rw [h]
  dsimp only
  cases hbare : isBareChars (trim s.toList) with
  | false =>
    rw [isBare_of_not_blank hs, hbare]
    exact ⟨none, rfl⟩
  | true =>
    have hbare : isBare s = .ok true := by rw [isBare_of_not_blank hs, hbare]
    obtain ⟨n, -, hn, -⟩ := exists_nameOf hbare
    rw [hbare, hn]
    exact ⟨some n, rfl⟩

/-- Whatever is said, what is found is the name of a package, if not quite its own name where a blank stands at its end.
Nothing can be told of a text exactly where there is nothing but blanks to read. -/
theorem nameIn_exact (text : String) :
    (∀ f, nameIn text = .error f ↔ f = .specifierBlank ∧ ∃ s, specifierIn? text = some s ∧ allBlank s = true) ∧
    ∀ n, nameIn text = .ok (some n) → isBare n = .ok true ∧ nameOf n = .ok (trimmed n) ∧
      (nameOf n = .ok n ↔ ∀ c ∈ n.toList.getLast?, isBlank c = false) := by
  refine ⟨fun f => ?_, fun n hn => ?_⟩
  · cases hs : specifierIn? text with
    | none => simp [nameIn_of_none hs]
    | some s =>
      cases hblank : allBlank s with
      | true =>
        rw [nameIn_of_blank hs hblank, Except.error.injEq]
        exact ⟨fun heq => ⟨heq.symm, s, rfl, hblank⟩, fun h => h.1.symm⟩
      | false =>
        obtain ⟨r, hr⟩ := nameIn_of_not_blank hs hblank
        simp [hr, hblank]
  · obtain ⟨s, -, hbare, hname⟩ := nameIn_eq_some hn
    exact nameOf_of_bare hbare hname

/-- A module whose name is a blank, and one with a blank before its version. -/
theorem blanks_misread : nameIn "Cannot find module ' '" = .error .specifierBlank ∧
    nameIn "Could not resolve \"a @1\"" = .ok (some "a ") ∧ nameOf "a " = .ok "a" :=
  ⟨nameIn_of_blank (s := " ") (by decide +kernel) (by decide), Except.eq_ok_of_toOption (by decide +kernel), by rfl⟩

end Offender

end Package

end Bundler
