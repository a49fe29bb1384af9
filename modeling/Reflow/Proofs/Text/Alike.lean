import Reflow.Proofs.Text.Words

/-!
# Proofs/Text/Alike — texts that markup takes for the same

Of a text markup sees the words, whether there is whitespace at either edge and whether it spans
lines, and of a text without words the line feeds up to two.  Texts that are alike in this are
classified alike (`TextContent.alike_ofText`), they count as content together, and they have the
same first word.
-/

namespace Reflow

namespace Text

/-- Runs of blanks that are **alike at an edge** of words: neither is there, or both are, and both
or neither span lines. -/
structure EdgesAlike (run run' : List Char) : Prop where
  absent : run = [] ↔ run' = []
  spansLines : '\n' ∈ run ↔ '\n' ∈ run'

/-- Texts that are **alike**: they have the same words, between edges that are alike, or no words
and the same number of line feeds as far as two. -/
structure Alike (raw raw' : String) : Prop where
  words : words raw.toList = Text.words raw'.toList
  leading (h : Text.words raw.toList ≠ []) :
    EdgesAlike (leadingBlanks raw.toList) (leadingBlanks raw'.toList)
  trailing (h : Text.words raw.toList ≠ []) :
    EdgesAlike (trailingBlanks raw.toList) (trailingBlanks raw'.toList)
  blank (h : Text.words raw.toList = []) :
    min 2 (raw.toList.count '\n') = min 2 (raw'.toList.count '\n')

theorem Alike.refl (raw : String) : Alike raw raw :=
  ⟨rfl, fun _ => ⟨.rfl, .rfl⟩, fun _ => ⟨.rfl, .rfl⟩, fun _ => rfl⟩

theorem firstWord_eq_head? (raw : String) : firstWord raw = (words raw.toList).head?.getD "" := by
  rw [firstWord, words, List.head?_map, List.head?_filter]
  cases (pieces raw.toList).find? fun piece => !piece.isEmpty <;> rfl

end Text

/-! ## Classification -/

namespace Whitespace

theorem ofRun_congr {run run' : List Char} (h : min 2 (run.count '\n') = min 2 (run'.count '\n')) :
    ofRun run = ofRun run' := by
  rw [ofRun, ofRun]
  generalize run.count '\n' = m at h
  generalize run'.count '\n' = n at h
  rcases m with _ | _ | m <;> rcases n with _ | _ | n <;> first | rfl | omega

/-- A run at an edge is there or not, and **spans lines** or not. -/
theorem map_spansLines_ofEdge? (run : List Char) :
    (ofEdge? run).map spansLines = if run = [] then none else some (decide ('\n' ∈ run)) := by
  rcases run with _ | ⟨c, run⟩
  · rfl
  · have hspans : (ofRun (c :: run)).spansLines = decide ('\n' ∈ c :: run) := by
      rw [Bool.eq_iff_iff, spansLines_eq_true_iff, decide_eq_true_eq, ne_eq,
        ofRun_eq_space_iff, not_not]
    rw [ofEdge?, List.isEmpty_cons, if_neg Bool.false_ne_true, Option.map_some, hspans,
      if_neg (List.cons_ne_nil c run)]

theorem map_spansLines_congr {run run' : List Char} (h : Text.EdgesAlike run run') :
    (ofEdge? run).map spansLines = (ofEdge? run').map spansLines := by
  rw [map_spansLines_ofEdge?, map_spansLines_ofEdge?]
  exact if_congr h.absent rfl (congrArg some (decide_eq_decide.mpr h.spansLines))

end Whitespace

namespace TextContent

/-- Contents that are **alike**: the same blanks, or the same words between edges that
span lines or not. -/
inductive Alike : TextContent → TextContent → Prop
  | blank (run : Whitespace) : Alike (.blank run) (.blank run)
  | words {leading leading' trailing trailing' : Option Whitespace} (ws : List String)
      (hleading : leading.map Whitespace.spansLines = leading'.map Whitespace.spansLines)
      (htrailing : trailing.map Whitespace.spansLines = trailing'.map Whitespace.spansLines) :
      Alike (.words leading ws trailing) (.words leading' ws trailing')

/-- The runs at the edges of a text are those **around its words**. -/
theorem edges_of_ofText {raw : String} (hne : Text.words raw.toList ≠ []) :
    ofText raw = .words (Whitespace.ofEdge? (Text.leadingBlanks raw.toList)) (Text.words raw.toList)
      (Whitespace.ofEdge? (Text.trailingBlanks raw.toList)) := by
  obtain ⟨hblank, -⟩ | ⟨leading, ws, inner, trailing, hraw, hl, ht, hjoined, hof⟩ :=
    ofText_cases raw
  · exact absurd (Text.words_of_isBlankRun hblank) hne
  · obtain ⟨c, rest, hc, hblank⟩ := hjoined.exists_eq_cons
    obtain ⟨front, d, hd, hblank'⟩ := hjoined.exists_eq_concat
    have hleading : Text.leadingBlanks raw.toList = leading := by
      rw [hraw, List.append_assoc, Text.leadingBlanks_append hl, hc, List.cons_append,
        Text.leadingBlanks_eq_nil hblank, List.append_nil]
    have hend : Text.trimEnd raw.toList = leading ++ inner := by
      rw [hraw, Text.trimEnd_append ht, hd, ← List.append_assoc, Text.trimEnd_eq_self hblank']
    have htrailing : Text.trailingBlanks raw.toList = trailing := by
      have hsplit := Text.trimEnd_append_trailingBlanks raw.toList
      rw [hend] at hsplit
      exact List.append_cancel_left (hsplit.trans hraw)
    rw [hleading, htrailing, words_eq_of_ofText hof, hof]

/-- Texts that are alike **are classified alike**. -/
theorem alike_ofText {raw raw' : String} (h : Text.Alike raw raw') :
    (ofText raw).Alike (ofText raw') := by
  by_cases hne : Text.words raw.toList = []
  · have hblank {raw : String} (hnone : Text.words raw.toList = []) :
        ofText raw = .blank (.ofRun raw.toList) := by
      obtain ⟨-, hof⟩ | ⟨_, _, _, _, _, _, _, hjoined, hof⟩ := ofText_cases raw
      · exact hof
      · exact absurd (words_eq_of_ofText hof ▸ hnone) hjoined.ne_nil
    rw [hblank hne, hblank (h.words ▸ hne), Whitespace.ofRun_congr (h.blank hne)]
    exact .blank _
  · rw [edges_of_ofText hne, edges_of_ofText (h.words ▸ hne), ← h.words]
    exact .words _ (Whitespace.map_spansLines_congr (h.leading hne))
      (Whitespace.map_spansLines_congr (h.trailing hne))

end TextContent

/-! ## What the neighbours see -/

namespace Text.Alike

variable {raw raw' : String}

/-- Texts that are alike **count as content together**. -/
theorem isMeaningful_eq (h : Alike raw raw') : isMeaningful raw = isMeaningful raw' := by
  have hcontent := TextContent.alike_ofText h
  rw [Bool.eq_iff_iff, ← not_iff_not, Bool.not_eq_true, Bool.not_eq_true,
    TextContent.isMeaningful_eq_false_iff, TextContent.isMeaningful_eq_false_iff]
  generalize TextContent.ofText raw = content at hcontent
  generalize TextContent.ofText raw' = content' at hcontent
  cases hcontent with
  | blank => exact .rfl
  | words => exact ⟨nofun, nofun⟩

theorem firstWord_eq (h : Alike raw raw') : firstWord raw = firstWord raw' := by
  rw [firstWord_eq_head?, firstWord_eq_head?, h.words]

end Text.Alike

end Reflow
