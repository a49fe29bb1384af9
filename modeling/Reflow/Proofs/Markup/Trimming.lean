import Reflow.Proofs.Markup.Merging

/-!
# Proofs/Markup/Trimming — what stands at the two ends

Trimming drops separators only where no content is left to separate, so the parts that are laid out
are merged parts that start with a content or with a space (`Part.exists_arrange_eq`), without what
carries no mark at their end.
-/

namespace Reflow.Part

variable {hasText : Bool}

/-! ## The end, part by part -/

/-- A part stays in front of parts of which something stays. -/
theorem trimEnd_cons_of_ne_nil (part : Part) {parts : List Part} (h : trimEnd parts ≠ []) :
    trimEnd (part :: parts) = part :: trimEnd parts := by
  have hne : (parts.reverse.dropWhile isLineOrEmpty).isEmpty = false := by
    simpa [trimEnd] using h
  rw [trimEnd, List.reverse_cons, List.dropWhile_append, hne]
  simp [trimEnd]

/-- In front of parts of which nothing stays, a part stays unless it is a line or empty. -/
theorem trimEnd_cons_of_eq_nil (part : Part) {parts : List Part} (h : trimEnd parts = []) :
    trimEnd (part :: parts) = if part.isLineOrEmpty then [] else [part] := by
  have hnil : parts.reverse.dropWhile isLineOrEmpty = [] := by simpa [trimEnd] using h
  rw [trimEnd, List.reverse_cons, List.dropWhile_append, hnil, List.isEmpty_nil, if_pos rfl]
  cases hp : part.isLineOrEmpty <;> simp [hp]

/-- A part that is no line and not empty stays. -/
theorem trimEnd_cons_of_not {part : Part} (parts : List Part) (h : part.isLineOrEmpty = false) :
    trimEnd (part :: parts) = part :: trimEnd parts := by
  by_cases hp : trimEnd parts = []
  · rw [trimEnd_cons_of_eq_nil part hp, hp, h, if_neg (by decide)]
  · exact trimEnd_cons_of_ne_nil part hp

theorem trimEnd_cons_ne_nil {part : Part} (parts : List Part) (h : part.isLineOrEmpty = false) :
    trimEnd (part :: parts) ≠ [] := by
  rw [trimEnd_cons_of_not parts h]
  exact List.cons_ne_nil _ _

/-- A space stays, and keeps what stands in front of it. -/
theorem trimEnd_cons_space (part : Part) (rest : List Part) :
    trimEnd (part :: .space :: rest) = part :: .space :: trimEnd rest := by
  rw [trimEnd_cons_of_ne_nil _ (trimEnd_cons_ne_nil rest rfl), trimEnd_cons_of_not rest rfl]

/-- The line between two words stays because **the second word does**. -/
theorem trimEnd_inText (s t : String) (rest : List Part) :
    trimEnd (.word s :: .line .orSpace :: .word t :: rest) =
      .word s :: .line .orSpace :: trimEnd (.word t :: rest) := by
  rw [trimEnd_cons_of_not _ rfl, trimEnd_cons_of_ne_nil _ (trimEnd_cons_ne_nil _ rfl)]

/-- What is left ends with a part that is no line and not empty. -/
theorem trimEnd_eq_nil_or (parts : List Part) :
    trimEnd parts = [] ∨ ∃ front last, trimEnd parts = front ++ [last] ∧
      last.isLineOrEmpty = false := by
  by_cases h : parts.reverse.dropWhile isLineOrEmpty = []
  · exact .inl (by rw [trimEnd, h, List.reverse_nil])
  · obtain ⟨last, front, hcons⟩ := List.exists_cons_of_ne_nil h
    have hlast := List.head_dropWhile_not isLineOrEmpty h
    simp only [hcons, List.head_cons] at hlast
    exact .inr ⟨front.reverse, last, by rw [trimEnd, hcons, List.reverse_cons], hlast⟩

theorem isLineOrEmpty_of_isFilled {part : Part} (h : part.isFilled) :
    part.isLineOrEmpty = false := by
  cases part <;> simp_all [isFilled, isLineOrEmpty]

/-- Nothing is lost at the end with a part that carries a mark or is dropped without one. -/
theorem flatMap_marks_trimEnd_cons {part : Part} {parts : List Part}
    (hpart : part.isLineOrEmpty = true → part.marks = [])
    (h : (trimEnd parts).flatMap marks = parts.flatMap marks) :
    (trimEnd (part :: parts)).flatMap marks = (part :: parts).flatMap marks := by
  rw [List.flatMap_cons, ← h]
  by_cases hp : trimEnd parts = []
  · rw [trimEnd_cons_of_eq_nil part hp, hp]
    split_ifs with hl
    · simp [hpart hl]
    · simp
  · rw [trimEnd_cons_of_ne_nil part hp, List.flatMap_cons]

/-- A content or a plain line is no space. -/
theorem marks_eq_nil_of_filled {content : Part} (h : content = .empty ∨ content.isFilled)
    (hl : content.isLineOrEmpty = true) : content.marks = [] := by
  obtain rfl | h := h
  · rfl
  · simp [isLineOrEmpty_of_isFilled h] at hl

theorem marks_line_of_ne {kind : LineKind} (h : kind ≠ .orSpace) : (line kind).marks = [] := by
  cases kind with
  | orSpace => exact absurd rfl h
  | orNil | hard => rfl

namespace Merged

/-- Trimming merged parts at their end **keeps every mark**. -/
theorem flatMap_marks_trimEnd {merged : List Part} (h : Merged hasText merged) :
    (trimEnd merged).flatMap marks = merged.flatMap marks := by
  induction h with
  | nil => rfl
  | space filled _ _ _ ih =>
    exact flatMap_marks_trimEnd_cons (marks_eq_nil_of_filled filled)
      (flatMap_marks_trimEnd_cons (by simp [isLineOrEmpty]) ih)
  | @inText s t rest tail ih =>
    rw [trimEnd_inText, List.flatMap_cons, List.flatMap_cons, ih]
    rfl
  | line filled plain _ _ _ ih =>
    exact flatMap_marks_trimEnd_cons (marks_eq_nil_of_filled filled)
      (flatMap_marks_trimEnd_cons (fun _ => marks_line_of_ne plain) ih)
  | nothing filled _ _ ih =>
    exact flatMap_marks_trimEnd_cons (marks_eq_nil_of_filled (.inr filled))
      (flatMap_marks_trimEnd_cons (fun _ => rfl) ih)

theorem read_trimEnd {merged : List Part} (h : Merged hasText merged) :
    read (trimEnd merged) = read merged := by
  rw [read, h.flatMap_marks_trimEnd, read]

/-! ## The start -/

/-- Nothing is dropped in front of a content that is there. -/
theorem trimStart_trimEnd_of_isFilled {content : Part} (h : content.isFilled) (rest : List Part) :
    trimStart (trimEnd (content :: rest)) = trimEnd (content :: rest) := by
  have hl := isLineOrEmpty_of_isFilled h
  rw [trimEnd_cons_of_not rest hl]
  cases trimEnd rest with
  | nil => rfl
  | cons next rest => rw [trimStart, if_neg (by simp [hl])]

/-- **Trimming merged parts at both ends** is dropping the lines without content in front, and then
trimming the rest at its end. -/
theorem exists_trim_eq {merged : List Part} (h : Merged hasText merged) :
    ∃ kept, Merged hasText kept ∧ (startsEmpty kept = true → startsSpace kept = true) ∧
      kept.flatMap marks = merged.flatMap marks ∧ trimStart (trimEnd merged) = trimEnd kept := by
  induction h with
  | nil => exact ⟨[], .nil, by simp [startsEmpty], rfl, rfl⟩
  | @space content rest filled text next tail _ =>
    refine ⟨_, .space filled text next tail, ?_, rfl, ?_⟩
    · cases content <;> simp [startsEmpty, startsSpace]
    · rw [trimEnd_cons_space, trimStart, if_neg (by simp [isLineOrEmpty])]
  | @inText s t rest tail _ =>
    refine ⟨_, .inText tail, by simp [startsEmpty], rfl, ?_⟩
    rw [trimEnd_inText, trimStart, if_neg (by simp [isLineOrEmpty])]
  | @line content kind rest filled plain next blank tail ih =>
    obtain rfl | hfilled := filled
    · -- a line without content in front goes
      obtain ⟨kept, hmerged, hstarts, hmarks, htrim⟩ := ih
      refine ⟨kept, hmerged, hstarts, by simp [hmarks, marks_line_of_ne plain], ?_⟩
      by_cases hrest : trimEnd rest = []
      · have hline : trimEnd (.line kind :: rest) = [] := by
          rw [trimEnd_cons_of_eq_nil _ hrest]
          rfl
        rw [trimEnd_cons_of_eq_nil _ hline, ← htrim, hrest]
        rfl
      · have hline := trimEnd_cons_of_ne_nil (.line kind) hrest
        rw [trimEnd_cons_of_ne_nil _ (by simp [hline]), hline, trimStart, if_pos (by rfl), htrim]
    · exact ⟨_, .line (.inr hfilled) plain next blank tail,
        by simp [startsEmpty_of_isFilled hfilled], rfl, trimStart_trimEnd_of_isFilled hfilled _⟩
  | @nothing content rest filled next tail _ =>
    exact ⟨_, .nothing filled next tail, by simp [startsEmpty_of_isFilled filled], rfl,
      trimStart_trimEnd_of_isFilled filled _⟩

end Merged

/-! ## The parts that are laid out -/

/-- The parts of children **as they are laid out** are merged parts that start with a content or a
space, trimmed at their end. -/
theorem exists_arrange_eq (localized : Bool) (children : List Child) :
    ∃ kept, Merged (children.any Child.isMeaningfulText) kept ∧
      (startsEmpty kept = true → startsSpace kept = true) ∧ read kept = Child.read children ∧
      arrange localized (children.any Child.isMeaningfulText) children = trimEnd kept := by
  set hasText := children.any Child.isMeaningfulText with htext
  have hmerged : Merged hasText (merge hasText (ofChildren localized children)) :=
    merged_merge localized fun child hc hm => List.any_eq_true.mpr ⟨child, hc, hm⟩
  obtain ⟨kept, hkept, hstarts, hmarks, htrim⟩ := hmerged.exists_trim_eq
  have hread : read kept = read (merge hasText (ofChildren localized children)) := by
    rw [read, hmarks, read]
  exact ⟨kept, hkept, hstarts, by rw [hread, read_merge, read_ofChildren], htrim⟩

/-- The content of a part, if it is one. -/
def content? : Part → Option Content
  | word s => some (.word s)
  | printed doc => some (.printed doc)
  | empty | space | line _ => none

/-- The items read from parts are their contents. -/
theorem map_snd_items_read (parts : List Part) :
    (read parts).items.map Prod.snd = parts.filterMap content? := by
  rw [read, Reading.map_snd_items_ofMarks]
  induction parts with
  | nil => rfl
  | cons part parts ih =>
    rw [List.flatMap_cons, List.filterMap_append, ih]
    rcases part with _ | _ | _ | (_ | _ | _) | _ <;> rfl

end Reflow.Part

namespace Reflow.Child

/-- The **contents of a child**: the words of a text, and the document of anything else. -/
def contents : Child → List Content
  | text raw => (Text.words raw.toList).map .word
  | printed _ doc => [.printed doc]

theorem filterMap_item?_words (words : List String) :
    ((words.map fun word => Mark.item (Content.word word)).intersperse .space).filterMap
      Mark.item? = words.map .word := by
  induction words with
  | nil => rfl
  | cons word words ih =>
    cases words with
    | nil => rfl
    | cons next words =>
      simp only [List.map_cons, List.intersperse_cons_cons] at ih ⊢
      simp [List.filterMap_cons, Mark.item?] at ih ⊢
      exact ih

theorem filterMap_item?_edgeMarks (run : Option Whitespace) :
    (Whitespace.edgeMarks run).filterMap Mark.item? = [] := by
  rcases run with _ | _ | _ | _ <;> rfl

/-- The items read from children are their contents. -/
theorem map_snd_items_read (children : List Child) :
    (read children).items.map Prod.snd = children.flatMap contents := by
  rw [read, Reading.map_snd_items_ofMarks]
  induction children with
  | nil => rfl
  | cons child children ih =>
    rw [List.flatMap_cons, List.flatMap_cons, List.filterMap_append, ih]
    congr 1
    cases child with
    | printed => rfl
    | text raw =>
      rw [marks, contents]
      cases hof : TextContent.ofText raw with
      | blank run =>
        rw [TextContent.marks, filterMap_item?_edgeMarks, TextContent.words_eq_nil_of_ofText hof]
        rfl
      | words leading inner trailing =>
        rw [TextContent.marks, List.filterMap_append, List.filterMap_append,
          filterMap_item?_edgeMarks, filterMap_item?_edgeMarks, filterMap_item?_words,
          TextContent.words_eq_of_ofText hof, List.nil_append, List.append_nil]

end Reflow.Child

namespace Reflow.Part

variable {hasText : Bool}

/-! ## The two ends of what is laid out -/

namespace Merged

variable {kept : List Part}

/-- A content that is there is **no space**, and none is read first. -/
theorem prefix_space_iff_of_isFilled {content : Part} (filled : content.isFilled)
    (parts rest : List Part) :
    [.empty, .space] <+: content :: parts ↔
      ((content :: rest).flatMap marks).head? = some .space := by
  refine iff_of_false (fun h => ?_) ?_
  · exact ne_empty_of_isFilled filled (List.cons_prefix_cons.mp h).1.symm
  · cases content with
    | word | printed => simp [marks]
    | empty | space | line => cases filled

/-- The parts that are left **start with a space** exactly if a space is read first. -/
theorem prefix_space_iff (h : Merged hasText kept)
    (hstarts : startsEmpty kept = true → startsSpace kept = true) :
    [.empty, .space] <+: trimEnd kept ↔ (read kept).spaceAtStart = true := by
  rw [read, Reading.spaceAtStart_ofMarks]
  cases h with
  | nil => simp [trimEnd]
  | @space content rest filled _ _ _ =>
    rw [trimEnd_cons_space]
    obtain rfl | filled := filled
    · simp [marks]
    · exact prefix_space_iff_of_isFilled filled _ _
  | inText =>
    rw [trimEnd_inText]
    exact prefix_space_iff_of_isFilled rfl _ _
  | @line content kind rest filled _ _ _ _ =>
    obtain rfl | filled := filled
    · simp [startsEmpty, startsSpace] at hstarts
    · rw [trimEnd_cons_of_not _ (isLineOrEmpty_of_isFilled filled)]
      exact prefix_space_iff_of_isFilled filled _ _
  | @nothing content rest filled _ _ =>
    rw [trimEnd_cons_of_not _ (isLineOrEmpty_of_isFilled filled)]
    exact prefix_space_iff_of_isFilled filled _ _

/-- The parts that are left **end with a space** exactly if a space is read last. -/
theorem suffix_space_iff (h : Merged hasText kept) :
    [.space] <:+ trimEnd kept ↔ (read kept).spaceAtEnd = true := by
  rw [← h.read_trimEnd, read, Reading.spaceAtEnd_ofMarks]
  obtain hnil | ⟨front, last, hlast, hkeeps⟩ := trimEnd_eq_nil_or kept
  · simp [hnil]
  · have hsuffix : [Part.space] <:+ front ++ [last] ↔ last = .space := by
      constructor
      · rintro ⟨start, hstart⟩
        simpa using (List.append_inj' hstart rfl).2.symm
      · rintro rfl
        exact List.suffix_append front _
    rw [hlast, hsuffix]
    -- what is left at the end carries exactly one mark
    cases last with
    | empty | line => simp [isLineOrEmpty] at hkeeps
    | word | printed | space => simp [marks]

/-- Without any content, a space is all that can be left. -/
theorem trimEnd_eq_of_no_content (h : Merged hasText kept)
    (hstarts : startsEmpty kept = true → startsSpace kept = true)
    (hnone : (read kept).items = []) :
    trimEnd kept = if (read kept).spaceAtEnd then [.empty, .space] else [] := by
  have hitems (part : Part) (hp : part ∈ kept) : part.isFilled = false := by
    have hmap := map_snd_items_read kept
    rw [hnone, List.map_nil, eq_comm, List.filterMap_eq_nil_iff] at hmap
    have := hmap part hp
    cases part <;> simp_all [content?, isFilled]
  cases h with
  | nil => rfl
  | @space content rest filled _ next tail =>
    obtain rfl : content = .empty := filled.resolve_right (by simp [hitems])
    -- a content behind the space would be there
    cases tail with
    | nil => rfl
    | space filled => simp_all [startsEmpty]
    | inText => simp [isFilled] at hitems
    | line filled => simp_all [startsEmpty]
    | nothing filled => simp_all
  | inText => simp [isFilled] at hitems
  | @line content kind rest filled _ _ _ _ =>
    obtain rfl : content = .empty := filled.resolve_right (by simp [hitems])
    simp [startsEmpty, startsSpace] at hstarts
  | nothing filled => simp [hitems] at filled

end Merged

/-- **The parts keep every child and every space.**  Their contents are those of the children, in
order; a space is read between two of them, before the first or after the last, exactly where one is
read among the children.  One before the first opens the parts behind an empty content, one after
the last closes them, and without any content nothing else is left. -/
theorem read_arrange (localized : Bool) (children : List Child) :
    let parts := arrange localized (children.any Child.isMeaningfulText) children
    parts.filterMap content? = children.flatMap Child.contents ∧
    read parts = Child.read children ∧
    ([.empty, .space] <+: parts ↔ (Child.read children).spaceAtStart = true) ∧
    ([.space] <:+ parts ↔ (Child.read children).spaceAtEnd = true) ∧
    (children.flatMap Child.contents = [] →
      parts = if (Child.read children).spaceAtEnd then [.empty, .space] else []) := by
  obtain ⟨kept, hmerged, hstarts, hread, harrange⟩ := exists_arrange_eq localized children
  have hparts : read (trimEnd kept) = Child.read children := hmerged.read_trimEnd.trans hread
  simp only [harrange, ← hread]
  refine ⟨?_, hmerged.read_trimEnd, hmerged.prefix_space_iff hstarts, hmerged.suffix_space_iff, ?_⟩
  · rw [← map_snd_items_read, hparts, Child.map_snd_items_read]
  · intro hnone
    refine hmerged.trimEnd_eq_of_no_content hstarts ?_
    rw [← Child.map_snd_items_read, ← hread] at hnone
    exact List.map_eq_nil_iff.mp hnone

end Reflow.Part
