import Reflow.Proofs.Markup.Steady

/-!
# Proofs/Markup/Variants — the two layouts of a shell

On one line and on lines of their own the children of a shell are the same texts: only how a space
is written depends on which it is, and a space is no text.  So a shell around steady children is
steady (`Shell.isSteady_doc`).
-/

namespace Reflow

open Text (kept isInert)

/-- Two variants with the same texts are **steady together**, if the second holds back no more than
the first. -/
theorem Doc.IsSteady.conditional {first second : Doc} (hfirst : first.IsSteady)
    (hsecond : second.IsSteady) (same : ∀ held, second.texts held = first.texts held)
    (back : first.suffixDepth = 0 → second.suffixDepth = 0) :
    (Doc.conditional [first, second]).IsSteady := by
  refine ⟨.conditional (by simp) ?_ ?_ ?_, hfirst.tidy⟩
  · rw [List.forall_mem_cons, List.forall_mem_singleton]
    exact ⟨hfirst.agrees, hsecond.agrees⟩
  · intro held
    rw [List.forall_mem_cons, List.forall_mem_singleton]
    exact ⟨rfl, same held⟩
  · by_cases hbreak : first.willBreak = true
    · right
      exact List.forall_mem_singleton.mpr hbreak
    · left
      have hzero := hfirst.agrees.suffixDepth_eq_zero (Bool.eq_false_iff.mpr hbreak)
      rw [List.forall_mem_cons, List.forall_mem_singleton]
      exact ⟨hzero, back hzero⟩

/-- A **steady content**: a word without quotes and braces, or a steady document. -/
def Content.IsSteady : Content → Prop
  | word s => isInert s = true
  | printed doc => doc.IsSteady

namespace Part

variable {o : LanguageOptions} {held : Bool}

/-- A part whose content is steady, **if it has one**. -/
def IsSteady (part : Part) : Prop := ∀ content ∈ part.content?, content.IsSteady

theorem isSpacing_spelled (o : LanguageOptions) :
    Text.isSpacing (SpaceStyle.inMarkup o).spelled = true :=
  Text.isSpacing_of_eq_spelling (SpaceStyle.toList_spelled o)

theorem kept_spelled (o : LanguageOptions) : kept (SpaceStyle.inMarkup o).spelled = [] := by
  rw [kept, if_pos (isSpacing_spelled o)]

/-- A space that matters is **no text**, however it is written. -/
theorem isCalm_space (o : LanguageOptions) :
    (SpaceStyle.inMarkup o).doc.IsCalm ∧ ∀ held, (SpaceStyle.inMarkup o).doc.texts held = [] := by
  have hspelled : (Doc.text (SpaceStyle.inMarkup o).spelled ++ Doc.line .orNil).IsSpacing := by
    refine .concat ?_
    rw [List.forall_mem_cons, List.forall_mem_singleton]
    exact ⟨.text (isSpacing_spelled o), .line (by simp)⟩
  have hnone (held : Bool) : (SpaceStyle.inMarkup o).doc.texts held = [] := rfl
  refine ⟨⟨.ifBreak hspelled (.text rfl), ?_⟩, hnone⟩
  rw [hnone]
  simp

theorem isSteady_partDoc {part : Part} (h : part.IsSteady) :
    (part.doc (SpaceStyle.inMarkup o).doc).IsSteady := by
  rcases part with _ | s | _ | kind | doc
  · exact (Doc.isCalm_text rfl).isSteady
  · exact (Doc.isCalm_text (h (.word s) rfl)).isSteady
  · exact (isCalm_space o).1.isSteady
  · exact (Doc.isCalm_line kind).isSteady
  · exact h (.printed doc) rfl

/-- On lines of its own a part is **the same texts** as on one line. -/
theorem isSteady_multilineDoc (beforeThat before : Option Part) {part : Part} (isLast : Bool)
    (h : part.IsSteady) :
    (multilineDoc (SpaceStyle.inMarkup o) beforeThat before part isLast).1.IsSteady ∧ ∀ held,
      (multilineDoc (SpaceStyle.inMarkup o) beforeThat before part isLast).1.texts held =
        (part.doc (SpaceStyle.inMarkup o).doc).texts held := by
  by_cases hpart : part = .space
  · subst hpart
    obtain ⟨hcalm, hnone⟩ := isCalm_space o
    have hspelled : (Doc.text (SpaceStyle.inMarkup o).spelled).IsCalm :=
      ⟨.text _, by simp [kept_spelled]⟩
    have hline : (Doc.text (SpaceStyle.inMarkup o).spelled ++ Doc.line .hard).IsCalm :=
      hspelled.append (Doc.isCalm_line .hard)
    rw [multilineDoc]
    split
    · next doc hdoc =>
      dsimp only
      obtain rfl | rfl := spelledSpace_cases hdoc
      · exact ⟨hspelled.isSteady, fun held => kept_spelled o⟩
      · refine ⟨hline.isSteady, fun held => ?_⟩
        rw [Doc.texts_append, Doc.texts_text, kept_spelled]
        rfl
    · exact ⟨hcalm.isSteady, fun _ => rfl⟩
  · rw [multilineDoc_fst hpart]
    exact ⟨isSteady_partDoc h, fun _ => rfl⟩

variable {parts : List Part}

theorem isSteady_multilineDocs (h : ∀ part ∈ parts, part.IsSteady)
    (beforeThat before : Option Part) :
    (∀ line ∈ multilineDocsAfter (SpaceStyle.inMarkup o) beforeThat before parts, line.1.IsSteady) ∧
      ∀ held, ((multilineDocsAfter (SpaceStyle.inMarkup o) beforeThat before parts).map
          Prod.fst).flatMap (Doc.texts held) =
        parts.flatMap fun part => (part.doc (SpaceStyle.inMarkup o).doc).texts held := by
  induction parts generalizing beforeThat before with
  | nil => exact ⟨by simp [multilineDocsAfter], fun _ => rfl⟩
  | cons part parts ih =>
    obtain ⟨hpart, hparts⟩ := List.forall_mem_cons.mp h
    obtain ⟨hline, htexts⟩ := @isSteady_multilineDoc o beforeThat before part parts.isEmpty hpart
    obtain ⟨hlines, htexts'⟩ := ih hparts before (some part)
    rw [multilineDocsAfter]
    refine ⟨List.forall_mem_cons.mpr ⟨hline, hlines⟩, fun held => ?_⟩
    rw [List.map_cons, List.flatMap_cons, List.flatMap_cons, htexts, htexts']

theorem isSteady_flatDoc (h : ∀ part ∈ parts, part.IsSteady) :
    (flatDoc (SpaceStyle.inMarkup o) parts).IsSteady :=
  .concat (List.forall_mem_map.mpr fun part hpart => isSteady_partDoc (h part hpart))

/-- On one line the texts are **those of the parts**, one behind the other. -/
theorem texts_flatDoc (parts : List Part) :
    (flatDoc (SpaceStyle.inMarkup o) parts).texts held =
      parts.flatMap fun part => (part.doc (SpaceStyle.inMarkup o).doc).texts held := by
  rw [flatDoc, Doc.texts_concat, List.flatMap_map]

end Part

namespace Shell

open Reflow.Part

variable {o : LanguageOptions} {shell : Shell}

theorem isSteady_content (hasText : Bool) {lines : List (Doc × Bool)}
    (h : ∀ line ∈ lines, line.1.IsSteady) :
    (content hasText lines).IsSteady ∧ ∀ held,
      (content hasText lines).texts held = (lines.map Prod.fst).flatMap (Doc.texts held) := by
  have hdocs : ∀ doc ∈ lines.map Prod.fst, doc.IsSteady := List.forall_mem_map.mpr h
  rw [content.eq_def]
  dsimp only
  split_ifs
  · rw [Doc.filled]
    split_ifs
    · refine ⟨.fill (List.forall_mem_append.mpr ⟨hdocs, List.forall_mem_singleton.mpr ?_⟩),
        fun held => ?_⟩
      · exact (Doc.isCalm_text rfl).isSteady
      · rw [Doc.texts_fill, List.flatMap_append]
        exact List.append_nil _
    · exact ⟨.fill hdocs, fun held => Doc.texts_fill _⟩
  · exact ⟨(Doc.IsSteady.concat hdocs).group true, fun held => Doc.texts_concat _⟩

theorem isSteady_multiline {inside : Doc} (hopening : shell.opening.IsSteady)
    (hclosing : shell.closingDoc.IsSteady) (h : inside.IsSteady) :
    (shell.multiline inside).IsSteady := by
  refine (Doc.IsSteady.concat ?_).group false
  simp only [List.forall_mem_cons]
  exact ⟨hopening, ((Doc.isCalm_line .hard).isSteady.append h).indent,
    (Doc.isCalm_line .hard).isSteady, hclosing, by simp⟩

theorem isSteady_onOneLine {flat : Doc} (hopening : shell.opening.IsSteady)
    (hclosing : shell.closingDoc.IsSteady) (h : flat.IsSteady) :
    (shell.onOneLine flat).IsSteady := by
  refine (Doc.IsSteady.concat ?_).group false
  simp only [List.forall_mem_cons]
  exact ⟨hopening, h, hclosing, by simp⟩

/-- If nothing is held back on one line, nothing is **on lines of its own**. -/
theorem suffixDepth_variants {parts : List Part} (hasText : Bool)
    (h : (shell.onOneLine (flatDoc (SpaceStyle.inMarkup o) parts)).suffixDepth = 0) :
    (shell.multiline (content hasText (multilineDocs (SpaceStyle.inMarkup o) parts))).suffixDepth =
      0 := by
  simp only [onOneLine, Doc.grouped, flatDoc, Doc.suffixDepth, Doc.maxSuffixDepth_eq_zero_iff,
    List.forall_mem_cons, List.forall_mem_map] at h
  obtain ⟨hopening, hparts, hclosing, -⟩ := h
  refine suffixDepth_multiline hopening hclosing
    (suffixDepth_content hasText (suffixDepth_multilineDocs (fun doc hdoc => ?_) none none))
  exact hparts _ hdoc

/-- A shell around **steady contents** is steady, on one line or on lines of its own. -/
theorem isSteady_around {children : List Child} (hopening : shell.opening.IsSteady)
    (hclosing : shell.closingDoc.IsSteady)
    (hparts : ∀ part ∈ arrange shell.isLocalized (children.any Child.isMeaningfulText) children,
      part.IsSteady) : (shell.around o false children).IsSteady := by
  set parts :=
    arrange shell.isLocalized (children.any Child.isMeaningfulText) children with harrange
  obtain ⟨hlines, htexts⟩ := @isSteady_multilineDocs o parts hparts none none
  obtain ⟨hcontent, hcontentTexts⟩ := isSteady_content (children.any Child.isMeaningfulText) hlines
  have hmulti := isSteady_multiline hopening hclosing hcontent
  have hflat := isSteady_onOneLine hopening hclosing (@isSteady_flatDoc o parts hparts)
  rw [around]
  simp only [SpaceStyle.of, Bool.false_eq_true, if_false, ← harrange, multilineDocs]
  split_ifs
  · exact hmulti
  · refine hflat.conditional hmulti (fun held => ?_) (suffixDepth_variants _)
    have hinside := (hcontentTexts held).trans (htexts held)
    rw [← texts_flatDoc] at hinside
    simpa [multiline, onOneLine, Doc.grouped] using hinside

/-- A shell with **steady children** is steady. -/
theorem isSteady_doc {children : List Child} (hopening : shell.opening.IsSteady)
    (hclosing : shell.closingDoc.IsSteady)
    (h : ∀ content ∈ children.flatMap Child.contents, content.IsSteady) :
    (shell.doc o false children).IsSteady := by
  rw [doc.eq_def]
  split_ifs
  · rw [empty]
    rw [closingDoc] at hclosing
    cases hc : shell.closing with
    | none => exact hopening
    | some closing =>
      rw [hc] at hclosing
      exact hopening.append hclosing
  · split
    · refine .concat ?_
      simp only [List.forall_mem_cons]
      exact ⟨hopening, h (.printed _) (by simp [Child.contents]), hclosing, by simp⟩
    · refine isSteady_around hopening hclosing fun part hpart content hcontent => ?_
      refine h content ?_
      rw [← filterMap_content?_arrange shell.isLocalized]
      exact List.mem_filterMap.mpr ⟨part, hpart, hcontent⟩

end Shell

end Reflow
