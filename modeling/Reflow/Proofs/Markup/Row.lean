import Reflow.Proofs.Markup.Trimming

/-!
# Proofs/Markup/Row — what is laid out, as one row of contents

After merging and trimming, the parts are a **row**: contents, and between two of them a space, the
line between words, or separators that let nothing be read.  A space before the first content is all
that may stand in front of the row (`Part.arrange_cases`).
-/

namespace Reflow.Part

variable {hasText : Bool}

/-- A separator, or a missing content among separators, that is **no space**. -/
def IsLoose (part : Part) : Prop := part = .empty ∨ part = .line .orNil ∨ part = .line .hard

/-- Loose separators are those that **let nothing be read**. -/
theorem IsLoose.marks_eq_nil {part : Part} (h : IsLoose part) : part.marks = [] := by
  obtain rfl | rfl | rfl := h <;> rfl

theorem isLoose_line {kind : LineKind} (h : kind ≠ .orSpace) : IsLoose (.line kind) := by
  rcases kind with _ | _ | _
  · exact absurd rfl h
  · exact .inr (.inl rfl)
  · exact .inr (.inr rfl)

/-- **A row**: contents, with what separates them, up to the last content or the space after it. -/
inductive Row : List Part → Prop
  | last {content : Part} (filled : content.isFilled) : Row [content]
  | lastSpace {content : Part} (filled : content.isFilled) : Row [content, .space]
  | space {content : Part} {rest : List Part} (filled : content.isFilled) (tail : Row rest) :
      Row (content :: .space :: rest)
  | inText {s t : String} {rest : List Part} (tail : Row (.word t :: rest)) :
      Row (.word s :: .line .orSpace :: .word t :: rest)
  | loose {content : Part} {separators rest : List Part} (filled : content.isFilled)
      (loose : ∀ separator ∈ separators, IsLoose separator) (tail : Row rest) :
      Row (content :: (separators ++ rest))

theorem Row.ne_nil {parts : List Part} (h : Row parts) : parts ≠ [] := by
  rcases h with _ | _ | _ | _ | _ <;> simp

theorem startsSpace_of_isFilled {content : Part} (filled : content.isFilled) (rest : List Part) :
    startsSpace (content :: rest) = false :=
  startsSpace_of_not_startsEmpty (startsEmpty_of_isFilled filled rest)

theorem Row.startsSpace_eq_false {parts : List Part} (h : Row parts) :
    startsSpace parts = false := by
  rcases h with filled | filled | ⟨filled, -⟩ | - | ⟨filled, -, -⟩
  · exact startsSpace_of_isFilled filled _
  · exact startsSpace_of_isFilled filled _
  · exact startsSpace_of_isFilled filled _
  · rfl
  · exact startsSpace_of_isFilled filled _

/-- Parts that start with a space have **nothing or a row** behind it. -/
inductive Spaced : List Part → Prop
  | alone : Spaced [.empty, .space]
  | row {rest : List Part} (h : Row rest) : Spaced (.empty :: .space :: rest)

/-! ## Trimming at the end -/

/-- That trimming leaves of parts **at their end** a row, behind a space or behind separators that
are trimmed at the start. -/
structure TrimsToRow (parts : List Part) : Prop where
  spaced : startsSpace parts = true → Spaced (trimEnd parts)
  loose : startsSpace parts = false → trimEnd parts = [] ∨
    ∃ separators row, trimEnd parts = separators ++ row ∧ Row row ∧
      (∀ separator ∈ separators, IsLoose separator) ∧ (startsEmpty parts = false → separators = [])

namespace TrimsToRow

variable {content : Part} {rest : List Part}

theorem of_row {parts : List Part} (hstarts : startsSpace parts = false) (h : Row (trimEnd parts)) :
    TrimsToRow parts :=
  ⟨by simp [hstarts], fun _ => .inr ⟨[], _, rfl, h, by simp, fun _ => rfl⟩⟩

/-- Parts that do not start empty have **no separators in front**. -/
theorem nil_or_row {parts : List Part} (h : TrimsToRow parts)
    (hstarts : startsEmpty parts = false) :
    trimEnd parts = [] ∨ Row (trimEnd parts) := by
  obtain hnil | ⟨separators, row, hrow, h, -, hnone⟩ :=
    h.loose (startsSpace_of_not_startsEmpty hstarts)
  · exact .inl hnil
  · rw [hrow, hnone hstarts]
    exact .inr h

theorem space (filled : content = .empty ∨ content.isFilled) (next : startsEmpty rest = false)
    (h : TrimsToRow rest) : TrimsToRow (content :: .space :: rest) := by
  obtain rfl | filled := filled
  · refine ⟨fun _ => ?_, by simp [startsSpace]⟩
    rw [trimEnd_cons_space]
    obtain hnil | hrow := h.nil_or_row next
    · rw [hnil]
      exact .alone
    · exact .row hrow
  · refine .of_row (startsSpace_of_isFilled filled _) ?_
    rw [trimEnd_cons_space]
    obtain hnil | hrow := h.nil_or_row next
    · rw [hnil]
      exact .lastSpace filled
    · exact .space filled hrow

theorem inText {s t : String} (h : TrimsToRow (.word t :: rest)) :
    TrimsToRow (.word s :: .line .orSpace :: .word t :: rest) := by
  have hrow := (h.nil_or_row rfl).resolve_left (trimEnd_cons_ne_nil rest rfl)
  refine .of_row rfl ?_
  rw [trimEnd_inText]
  rw [trimEnd_cons_of_not _ rfl] at hrow ⊢
  exact .inText hrow

theorem line {kind : LineKind} (filled : content = .empty ∨ content.isFilled)
    (plain : kind ≠ .orSpace) (next : startsSpace rest = false) (h : TrimsToRow rest) :
    TrimsToRow (content :: .line kind :: rest) := by
  obtain hnil | ⟨separators, row, hrow, h, hloose, -⟩ := h.loose next
  · have hline : trimEnd (.line kind :: rest) = [] := trimEnd_cons_of_eq_nil _ hnil
    have htrim := trimEnd_cons_of_eq_nil content hline
    obtain rfl | filled := filled
    · exact ⟨by simp [startsSpace], fun _ => .inl htrim⟩
    · refine .of_row (startsSpace_of_isFilled filled _) ?_
      rw [htrim, if_neg (by simp [isLineOrEmpty_of_isFilled filled])]
      exact .last filled
  · have hline := trimEnd_cons_of_ne_nil (.line kind)
      (show trimEnd rest ≠ [] by simp [hrow, h.ne_nil])
    have htrim : trimEnd (content :: .line kind :: rest) =
        content :: .line kind :: (separators ++ row) := by
      rw [trimEnd_cons_of_ne_nil _ (by simp [hline]), hline, hrow]
    have hloose' : ∀ separator ∈ .line kind :: separators, IsLoose separator :=
      List.forall_mem_cons.mpr ⟨isLoose_line plain, hloose⟩
    obtain rfl | filled := filled
    · exact ⟨by simp [startsSpace],
        fun _ => .inr ⟨.empty :: .line kind :: separators, row, htrim, h,
          List.forall_mem_cons.mpr ⟨.inl rfl, hloose'⟩, by simp [startsEmpty]⟩⟩
    · refine .of_row (startsSpace_of_isFilled filled _) ?_
      rw [htrim]
      exact .loose filled hloose' h

theorem nothing (filled : content.isFilled) (next : startsEmpty rest = false)
    (h : TrimsToRow rest) : TrimsToRow (content :: .empty :: rest) := by
  refine .of_row (startsSpace_of_isFilled filled _) ?_
  rw [trimEnd_cons_of_not _ (isLineOrEmpty_of_isFilled filled)]
  obtain hnil | hrow := h.nil_or_row next
  · rw [trimEnd_cons_of_eq_nil _ hnil]
    exact .last filled
  · rw [trimEnd_cons_of_ne_nil _ hrow.ne_nil]
    exact @Row.loose _ [.empty] _ filled (by simp [IsLoose]) hrow

end TrimsToRow

/-- By induction on **the normal form of merged parts**, which has a case for each separator. -/
theorem Merged.trimsToRow {merged : List Part} (h : Merged hasText merged) : TrimsToRow merged := by
  induction h with
  | nil => exact ⟨by simp [startsSpace], fun _ => .inl rfl⟩
  | space filled _ next _ ih => exact .space filled next ih
  | inText _ ih => exact .inText ih
  | line filled plain next _ _ ih => exact .line filled plain next ih
  | nothing filled next _ ih => exact .nothing filled next ih

/-- The **parts that are laid out**: none, a row, or a space before one.  They read
as the children do. -/
theorem arrange_cases (localized : Bool) (children : List Child) :
    let parts := arrange localized (children.any Child.isMeaningfulText) children
    (parts = [] ∨ Row parts ∨ Spaced parts) ∧ read parts = Child.read children := by
  obtain ⟨kept, hmerged, hstarts, hread, harrange⟩ := exists_arrange_eq localized children
  dsimp only
  rw [harrange, hmerged.read_trimEnd, hread]
  refine ⟨?_, rfl⟩
  cases hspace : startsSpace kept with
  | true => exact .inr (.inr (hmerged.trimsToRow.spaced hspace))
  | false =>
    have hempty : startsEmpty kept = false := by
      rw [← Bool.not_eq_true]
      intro he
      rw [hstarts he] at hspace
      cases hspace
    obtain hnil | hrow := hmerged.trimsToRow.nil_or_row hempty
    · exact .inl hnil
    · exact .inr (.inl hrow)

/-- The contents that are laid out are **those of the children**. -/
theorem filterMap_content?_arrange (localized : Bool) (children : List Child) :
    (arrange localized (children.any Child.isMeaningfulText) children).filterMap content? =
      children.flatMap Child.contents := by
  rw [← map_snd_items_read, (arrange_cases localized children).2, Child.map_snd_items_read]

/-- Merging and trimming **print nothing new**. -/
theorem exists_printed_of_mem_arrange {localized : Bool} {children : List Child} {doc : Doc}
    (h : .printed doc ∈ arrange localized (children.any Child.isMeaningfulText) children) :
    ∃ kind, Child.printed kind doc ∈ children := by
  have hmem : Content.printed doc ∈ children.flatMap Child.contents := by
    rw [← filterMap_content?_arrange localized]
    exact List.mem_filterMap.mpr ⟨_, h, rfl⟩
  obtain ⟨child, hchild, hdoc⟩ := List.mem_flatMap.mp hmem
  rcases child with raw | ⟨kind, doc'⟩
  · simp [Child.contents] at hdoc
  · simp only [Child.contents, List.mem_singleton, Content.printed.injEq] at hdoc
    exact ⟨kind, hdoc ▸ hchild⟩

theorem isWord_of_mem_arrange {localized : Bool} {children : List Child} {word : String}
    (h : .word word ∈ arrange localized (children.any Child.isMeaningfulText) children) :
    Text.IsWord word.toList := by
  have hmem : Content.word word ∈ children.flatMap Child.contents := by
    rw [← filterMap_content?_arrange localized]
    exact List.mem_filterMap.mpr ⟨_, h, rfl⟩
  obtain ⟨child, -, hword⟩ := List.mem_flatMap.mp hmem
  rcases child with raw | _
  · obtain ⟨_, hword, ⟨⟩⟩ := List.mem_map.mp hword
    exact (TextContent.forall_isWord_words raw word hword).1
  · simp [Child.contents] at hword

/-- Text that counts, if it has no words, is **a space**. -/
theorem space_mem_marks {child : Child} (text : child.isMeaningfulText = true)
    (hnone : child.contents = []) : .space ∈ child.marks := by
  cases child with
  | printed => cases text
  | text raw =>
    rw [Child.isMeaningfulText] at text
    rw [Child.marks]
    cases hof : TextContent.ofText raw with
    | blank run =>
      cases run with
      | space => exact List.mem_singleton_self _
      | lineBreak | blankLine =>
        rw [(TextContent.isMeaningful_eq_false_iff raw).mpr ⟨_, hof, rfl⟩] at text
        cases text
    | words leading inner trailing =>
      obtain ⟨word, words, rfl⟩ := List.exists_cons_of_ne_nil (TextContent.words_ne_nil hof)
      rw [Child.contents, TextContent.words_eq_of_ofText hof] at hnone
      cases hnone

/-- Text that counts leaves **something to lay out**. -/
theorem arrange_ne_nil (localized : Bool) {children : List Child}
    (text : children.any Child.isMeaningfulText = true) :
    arrange localized (children.any Child.isMeaningfulText) children ≠ [] := by
  intro hnil
  obtain ⟨kept, hmerged, hstarts, hread, harrange⟩ := exists_arrange_eq localized children
  have hcontents := filterMap_content?_arrange localized children
  rw [hnil, List.filterMap_nil] at hcontents
  have hnone : (read kept).items = [] := by
    rw [hread, ← List.map_eq_nil_iff, Child.map_snd_items_read, ← hcontents]
  have hspace := hmerged.trimEnd_eq_of_no_content hstarts hnone
  rw [← harrange, hnil, hread] at hspace
  have hmarks : ∀ mark ∈ children.flatMap Child.marks, mark = .space := by
    have hitems := Child.map_snd_items_read children
    rw [Child.read, Reading.map_snd_items_ofMarks, ← hcontents, List.filterMap_eq_nil_iff] at hitems
    intro mark hmark
    cases mark with
    | space => rfl
    | item => cases hitems _ hmark
  obtain ⟨child, hchild, hmeans⟩ := List.any_eq_true.mp text
  have hmem : Mark.space ∈ children.flatMap Child.marks := List.mem_flatMap.mpr
    ⟨child, hchild, space_mem_marks hmeans (List.flatMap_eq_nil_iff.mp hcontents.symm child hchild)⟩
  have hne := List.ne_nil_of_mem hmem
  have hlast : (children.flatMap Child.marks).getLast? = some .space := by
    rw [List.getLast?_eq_some_getLast hne, hmarks _ (List.getLast_mem hne)]
  -- so a space is read at the end, and that is laid out
  have hend : (Child.read children).spaceAtEnd = true := by
    rw [Child.read, Reading.spaceAtEnd_ofMarks, hlast]
  rw [if_pos hend] at hspace
  cases hspace

end Reflow.Part
