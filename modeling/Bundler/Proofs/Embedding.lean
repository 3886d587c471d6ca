import Bundler.Program.Text
import Bundler.Proofs.Parsing

/-!
# The configuration in a program

A program is the lines above the one with the configuration, that line, and the lines below it. The others are the
same for every configuration of the pass (`Program.above`, `Program.below`), and none of them begins like the one
with the configuration. So whatever the configuration holds, it stands on that line and is read from there again. There
is one program for it, which is made wherever the configuration can be written (`Program.ofJson_embeds`).
-/

namespace Bundler.Program

/-- The lines above the configuration. -/
def above (p : Pass) : List String :=
  (marker ++ p.name) :: imports

/-- The lines below the configuration, the last of them with nothing on it. -/
def below (p : Pass) : List String :=
  helpers ++ "" :: body p ++ "" :: ending ++ [""]

/-- The text neither breaks the line nor begins like the line with the configuration. -/
def Fixed (cs : List Char) : Prop :=
  '\n' ∉ cs ∧ ¬ configLead.toList <+: cs

instance (cs : List Char) : Decidable (Fixed cs) :=
  inferInstanceAs (Decidable (_ ∧ _))

/-- The form in which a literal is decided fast. -/
theorem fixed_ofList {cs : List Char} (h : Fixed cs) : Fixed (String.ofList cs).toList := by
  rwa [String.toList_ofList]

theorem Fixed.append {cs ds : List Char} (h : Fixed cs) (hlength : configLead.toList.length ≤ cs.length)
    (hds : '\n' ∉ ds) : Fixed (cs ++ ds) :=
  ⟨fun hmem => (List.mem_append.1 hmem).elim h.1 hds,
    fun hlead => h.2 (List.prefix_of_prefix_length_le hlead (List.prefix_append cs ds) hlength)⟩

theorem fixed_imports : ∀ l ∈ imports, Fixed l.toList := by
  unfold imports
  repeat refine List.forall_mem_cons.2 ⟨fixed_ofList (by decide), ?_⟩
  exact List.forall_mem_nil _

theorem fixed_helpers : ∀ l ∈ helpers, Fixed l.toList := by
  unfold helpers
  repeat refine List.forall_mem_cons.2 ⟨fixed_ofList (by decide), ?_⟩
  exact List.forall_mem_nil _

theorem fixed_body (p : Pass) : ∀ l ∈ body p, Fixed l.toList := by
  cases p with
  | discover =>
    show ∀ l ∈ discoverBody, Fixed l.toList
    unfold discoverBody
    repeat refine List.forall_mem_cons.2 ⟨fixed_ofList (by decide), ?_⟩
    exact List.forall_mem_nil _
  | finalize =>
    show ∀ l ∈ finalizeBody, Fixed l.toList
    unfold finalizeBody
    repeat refine List.forall_mem_cons.2 ⟨fixed_ofList (by decide), ?_⟩
    exact List.forall_mem_nil _
  | styles =>
    show ∀ l ∈ stylesBody, Fixed l.toList
    unfold stylesBody
    repeat refine List.forall_mem_cons.2 ⟨fixed_ofList (by decide), ?_⟩
    exact List.forall_mem_nil _

theorem fixed_ending : ∀ l ∈ ending, Fixed l.toList := by
  unfold ending
  repeat refine List.forall_mem_cons.2 ⟨fixed_ofList (by decide), ?_⟩
  exact List.forall_mem_nil _

theorem newline_notMem_name (p : Pass) : '\n' ∉ p.name.toList := by
  cases p <;> decide

theorem fixed_above (p : Pass) : ∀ l ∈ above p, Fixed l.toList := by
  refine List.forall_mem_cons.2 ⟨?_, fixed_imports⟩
  have hmarker : Fixed marker.toList := fixed_ofList (by decide)
  rw [String.toList_append]
  exact hmarker.append (by decide) (newline_notMem_name p)

theorem fixed_below (p : Pass) : ∀ l ∈ below p, Fixed l.toList := by
  have hempty : Fixed "".toList := fixed_ofList (by decide)
  refine List.forall_mem_append.2 ⟨?_, List.forall_mem_singleton.2 hempty⟩
  refine List.forall_mem_append.2 ⟨?_, List.forall_mem_cons.2 ⟨hempty, fixed_ending⟩⟩
  exact List.forall_mem_append.2 ⟨fixed_helpers, List.forall_mem_cons.2 ⟨hempty, fixed_body p⟩⟩

/-- A program is split into the lines it was made of. -/
theorem pieces_text (p : Pass) (config : Json) :
    Text.pieces '\n' (text p config) = above p ++ configLine config :: below p := by
  have hline : '\n' ∉ (configLine config).toList := by
    rw [configLine, String.toList_append, String.toList_append]
    intro h
    rcases List.mem_append.1 h with h | h
    · rcases List.mem_append.1 h with h | h
      · exact absurd h (by decide)
      · exact Json.newline_notMem_write config h
    · exact absurd h (by decide)
  have hbelow : below p = (helpers ++ "" :: body p ++ "" :: ending) ++ [""] := rfl
  have hlines : lines p config = above p ++ configLine config :: (helpers ++ "" :: body p ++ "" :: ending) := by
    simp [lines, above]
  have hno : ∀ l ∈ lines p config, '\n' ∉ l.toList := by
    rw [hlines]
    refine List.forall_mem_append.2 ⟨fun l hl => (fixed_above p l hl).1,
      List.forall_mem_cons.2 ⟨hline, fun l hl => ?_⟩⟩
    exact (fixed_below p l (hbelow ▸ List.mem_append_left _ hl)).1
  unfold text ofLines
  rw [Text.pieces_lines hno, hlines, hbelow]
  simp

theorem firstLine_append {cs : List Char} (h : '\n' ∉ cs) (rest : List Char) :
    Text.firstLine (cs ++ '\n' :: rest) = cs := by
  have hcs : ∀ c ∈ cs, (c != '\n') = true := fun c hc => by
    simp only [bne_iff_ne]
    rintro rfl
    exact h hc
  rw [Text.firstLine, List.takeWhile_append_of_pos hcs]
  simp

theorem passName?_text (p : Pass) (config : Json) : passName? (text p config) = some p.name := by
  obtain ⟨rest, hrest⟩ : ∃ rest, (text p config).toList = (marker ++ p.name).toList ++ '\n' :: rest := by
    refine ⟨(String.join ((lines p config).tail.map (· ++ "\n"))).toList, ?_⟩
    simp [text, ofLines, lines, String.toList_join]
  have hfirst := (fixed_above p _ (List.mem_cons_self ..)).1
  have htrim : Text.trim p.name.toList = p.name.toList := by
    cases p <;> decide
  rw [passName?, hrest, firstLine_append hfirst, Text.after?_eq_some_iff.2 (String.toList_append ..)]
  show some (String.ofList (Text.trim p.name.toList)) = _
  rw [htrim, String.ofList_toList]

/-- What a program says the configuration is. -/
theorem config?_text (p : Pass) (config : Json) :
    config? (text p config) = Json.parse? config.write := by
  have hfind : (Text.pieces '\n' (text p config)).find? (fun l => configLead.toList.isPrefixOf l.toList) =
      some (configLine config) := by
    have habove : (above p).find? (fun l => configLead.toList.isPrefixOf l.toList) = none :=
      List.find?_eq_none.2 fun l hl hlead => (fixed_above p l hl).2 (List.isPrefixOf_iff_prefix.1 hlead)
    have hline : configLead.toList.isPrefixOf (configLine config).toList = true := by
      rw [List.isPrefixOf_iff_prefix, configLine, String.toList_append, String.toList_append, List.append_assoc]
      exact List.prefix_append ..
    rw [pieces_text, List.find?_append, habove, List.find?_cons, hline]
    rfl
  have hline : Text.after? configLead.toList (configLine config).toList = some (config.write.toList ++ [';']) := by
    rw [Text.after?_eq_some_iff, configLine, String.toList_append, String.toList_append, List.append_assoc]
    rfl
  unfold config?
  rw [hfind]
  simp [hline]

theorem ofJson_of_fits {b : Json.Bounds} (p : Pass) {config : Json} (h : config.Fits b) :
    ofJson b (.str p.name) config = .ok (text p config) := by
  unfold ofJson
  dsimp only
  rw [Pass.ofName?_name, Json.encode_of_fits h]
  rfl

theorem exists_ofJson_eq_error {b : Json.Bounds} (p : Pass) {config : Json} (h : ¬ config.Fits b) :
    ∃ e, Json.excess? .written b.digits b.levels config = some e ∧
      ofJson b (.str p.name) config = .error (.excess e) := by
  obtain ⟨e, he, hencode⟩ := Json.exists_encode_eq_error h
  refine ⟨e, he, ?_⟩
  unfold ofJson
  dsimp only
  rw [Pass.ofName?_name, hencode]
  rfl

/-- A configuration with texts that could end a string, a line or a program. -/
def hostile : Json :=
  .obj [("entry", .str "\"\\\n\x00\u2028😀; __CONFIG__"), ("const CONFIG = ", .arr [.int (-12), .obj [], .null])]

end Bundler.Program
