import Bundler.Build.StyleOutcome
import Bundler.Proofs.Embedding

/-!
# What a style sheet's snippet gives away

A script with a style sheet in front of it begins with lines that are the same for every style sheet, but for one,
and the script stands behind them (`pieces_apply`). The one line ends with the style sheet's literal and a
semicolon, whatever the style sheet holds. So both are read from the text again (`recover?`), a script that looks
like a snippet itself too, and no two pairs of them give one text.
-/

namespace Bundler.StyleOutcome

/-- A style sheet was found. -/
def found (css : String) : StyleOutcome where
  css := some css

theorem succeeded_iff (o : StyleOutcome) : o.succeeded = true ↔ ∃ css, o = found css := by
  obtain ⟨_ | css, _ | error⟩ := o
  · exact iff_of_false Bool.false_ne_true fun ⟨_, h⟩ => nomatch h
  · exact iff_of_false Bool.false_ne_true fun ⟨_, h⟩ => nomatch h
  · exact iff_of_true rfl ⟨css, rfl⟩
  · exact iff_of_false Bool.false_ne_true fun ⟨_, h⟩ => nomatch h

/-! ### Lines -/

/-- The lines above the style sheet's. -/
def above : List String := [
  "(function () \x7b",
  "  var id = \"terrarium-styles\";",
  "  var previous = document.getElementById(id);",
  "  if (previous) previous.remove();",
  "  var style = document.createElement('style');",
  "  style.id = id;"]

/-- What the style sheet's line says before its literal. -/
def lead : String := "  style.textContent = "

def below : List String := [
  "  document.head.appendChild(style);",
  "\x7d)();"]

theorem opening_eq : opening = String.join (above.map (· ++ "\n")) ++ lead := rfl

theorem closing_eq : closing = ";\n" ++ String.join (below.map (· ++ "\n")) := rfl

theorem toList_closing : closing.toList = ';' :: '\n' :: (String.join (below.map (· ++ "\n"))).toList := by
  rw [closing_eq, String.toList_append]
  rfl

/-- The line that a style sheet stands on. -/
def styleLine (css : String) : String :=
  lead ++ Json.literal css ++ ";"

/-- The form in which the lines above and below are decided fast. -/
theorem newline_notMem_ofList {cs : List Char} (h : '\n' ∉ cs) : '\n' ∉ (String.ofList cs).toList := by
  rwa [String.toList_ofList]

theorem snippet_eq (css : String) :
    snippet css = String.join ((above ++ styleLine css :: below).map (· ++ "\n")) := by
  rw [snippet, opening_eq, closing_eq, List.map_append, String.join_append, List.map_cons, String.join_cons, styleLine]
  simp only [String.append_assoc]
  rfl

/-- A style sheet adds one line, and no other line is another because of it. -/
theorem pieces_apply (css script : String) : Text.pieces '\n' ((found css).apply script) =
    above ++ styleLine css :: (below ++ Text.pieces '\n' script) := by
  have habove : ∀ l ∈ above, '\n' ∉ l.toList := by
    unfold above
    repeat refine List.forall_mem_cons.2 ⟨newline_notMem_ofList (by decide), ?_⟩
    exact List.forall_mem_nil _
  have hbelow : ∀ l ∈ below, '\n' ∉ l.toList := by
    unfold below
    repeat refine List.forall_mem_cons.2 ⟨newline_notMem_ofList (by decide), ?_⟩
    exact List.forall_mem_nil _
  have hline : '\n' ∉ (styleLine css).toList := Json.newline_notMem_line css (by decide) (by decide)
  have hno : ∀ l ∈ above ++ styleLine css :: below, '\n' ∉ l.toList :=
    List.forall_mem_append.2 ⟨habove, List.forall_mem_cons.2 ⟨hline, hbelow⟩⟩
  have happly : (found css).apply script = snippet css ++ script := rfl
  rw [happly, snippet_eq, Text.pieces_lines_append hno, List.append_assoc, List.cons_append]

/-! ### Reading -/

theorem toList_apply (css script : String) : ((found css).apply script).toList =
    opening.toList ++ ((Json.literal css).toList ++ (closing.toList ++ script.toList)) := by
  have happly : (found css).apply script = snippet css ++ script := rfl
  rw [happly, snippet, String.toList_append, String.toList_append, String.toList_append, List.append_assoc,
    List.append_assoc]

/-- What a line with a literal and a semicolon says. -/
def literalOf? (line : List Char) : Option String :=
  if line.getLast? = some ';' then
    match Json.parse? (String.ofList line.dropLast) with
    | some (.str s) => some s
    | _ => none
  else none

/-- The style sheet and the script of a text. -/
def recover? (text : String) : Option (String × String) := do
  let rest ← Text.after? opening.toList text.toList
  let line := Text.firstLine rest
  let css ← literalOf? line
  let script ← Text.after? closing.toList (rest.drop (line.length - 1))
  return (css, String.ofList script)

theorem literalOf?_literal (s : String) : literalOf? ((Json.literal s).toList ++ [';']) = some s := by
  unfold literalOf?
  rw [List.getLast?_concat, if_pos rfl, List.dropLast_concat, String.ofList_toList, Json.parse?, Json.parse_literal]
  rfl

theorem recover?_apply (css script : String) : recover? ((found css).apply script) = some (css, script) := by
  have hrest : Text.after? opening.toList ((found css).apply script).toList =
      some ((Json.literal css).toList ++ (closing.toList ++ script.toList)) :=
    Text.after?_eq_some_iff.2 (toList_apply css script)
  have hline : Text.firstLine ((Json.literal css).toList ++ (closing.toList ++ script.toList)) =
      (Json.literal css).toList ++ [';'] := by
    have hno : '\n' ∉ (Json.literal css).toList ++ [';'] := fun h =>
      (List.mem_append.1 h).elim (Json.newline_notMem_literal css) (by decide)
    have hlines : (Json.literal css).toList ++ (closing.toList ++ script.toList) =
        ((Json.literal css).toList ++ [';']) ++
          '\n' :: ((String.join (below.map (· ++ "\n"))).toList ++ script.toList) := by
      rw [toList_closing]
      simp only [List.append_assoc, List.cons_append, List.nil_append]
    rw [hlines, Program.firstLine_append hno]
  have hdrop : ((Json.literal css).toList ++ (closing.toList ++ script.toList)).drop
      (((Json.literal css).toList ++ [';']).length - 1) = closing.toList ++ script.toList := by
    rw [List.length_append, List.length_singleton, Nat.add_sub_cancel, List.drop_left]
  have hscript : Text.after? closing.toList (closing.toList ++ script.toList) = some script.toList :=
    Text.after?_eq_some_iff.2 rfl
  simp only [recover?, hrest, hline, literalOf?_literal, hdrop, hscript, Option.bind_eq_bind, Option.bind_some,
    String.ofList_toList, Option.pure_def]

/-- A style sheet that was found, and the script, are told by the text that is made of them: the text ends with the
script, of the lines before it only one depends on the style sheet, and its literal goes as far as it was written. -/
theorem apply_decodes :
    (∀ o : StyleOutcome, o.succeeded = true ↔ ∃ css, o = found css) ∧ ∀ css script : String,
      script.toList <:+ ((found css).apply script).toList ∧
      recover? ((found css).apply script) = some (css, script) ∧
      Text.pieces '\n' ((found css).apply script) =
        above ++ (lead ++ Json.literal css ++ ";") :: (below ++ Text.pieces '\n' script) ∧
      (∃ text, ((found css).apply script).toList = opening.toList ++ '"' :: text ∧
        Json.Reader.string? text = some (css, closing.toList ++ script.toList)) ∧
      ∀ css' script' : String,
        (found css').apply script' = (found css).apply script ↔ css' = css ∧ script' = script := by
  refine ⟨succeeded_iff, fun css script => ⟨?_, recover?_apply css script, pieces_apply css script, ?_, ?_⟩⟩
  · rw [toList_apply, ← List.append_assoc, ← List.append_assoc]
    exact List.suffix_append ..
  · refine ⟨_, ?_, Json.Reader.string?_chars css _⟩
    rw [toList_apply, Json.literal, String.toList_ofList, Json.Writer.string]
    simp only [List.append_assoc, List.cons_append, List.nil_append]
  · intro css' script'
    constructor
    · intro h
      have hboth := recover?_apply css' script'
      rw [h, recover?_apply css script] at hboth
      cases hboth
      exact ⟨rfl, rfl⟩
    · rintro ⟨rfl, rfl⟩
      rfl

end Bundler.StyleOutcome
