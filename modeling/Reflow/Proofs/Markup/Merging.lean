import Reflow.Markup.Part
import Reflow.Proofs.Text.Reading
import Reflow.Proofs.Text.Words

/-!
# Proofs/Markup/Merging — children keep their contents and their spaces

Children are read twice: as they are written, and as the parts they are laid out from.  Merging and
trimming take separators away from several neighbours at once, and still both readings agree
(`read_arrange`).

What carries the proof is a normal form, `Part.Merged`: contents and separators in turn, with
nothing between two separators only where neither takes in the other.  One child more in front keeps
it.
-/

namespace Reflow

/-- What carries content: a **word** of a text, or the document of any other child. -/
inductive Content where
  | word (s : String)
  | printed (doc : Doc)

/-! ## The two readings -/

/-- A run of blanks at the edge of a text, read: without a line break it is a space. -/
def Whitespace.edgeMarks : Option Whitespace → List (Mark Content)
  | some .space => [.space]
  | some .lineBreak | some .blankLine | none => []

/-- A text, read: between two of its words there is a space, whatever the blanks are. -/
def TextContent.marks : TextContent → List (Mark Content)
  | .blank whitespace => Whitespace.edgeMarks (some whitespace)
  | .words leading inner trailing =>
    Whitespace.edgeMarks leading ++
      (inner.map fun word => Mark.item (Content.word word)).intersperse .space ++
      Whitespace.edgeMarks trailing

namespace Child

/-- A child, read. -/
def marks : Child → List (Mark Content)
  | text raw => (TextContent.ofText raw).marks
  | printed _ doc => [.item (.printed doc)]

/-- **Children**, read as they are written. -/
def read (children : List Child) : Reading Content := .ofMarks (children.flatMap marks)

end Child

namespace Part

/-- A part, read: of the separators, the space and the line between two words are spaces. -/
def marks : Part → List (Mark Content)
  | empty | line .orNil | line .hard => []
  | word s => [.item (.word s)]
  | printed doc => [.item (.printed doc)]
  | space | line .orSpace => [.space]

@[simp] theorem marks_empty : empty.marks = [] := rfl

@[simp] theorem marks_word (s : String) : (word s).marks = [.item (.word s)] := rfl

@[simp] theorem marks_printed (doc : Doc) : (printed doc).marks = [.item (.printed doc)] := rfl

@[simp] theorem marks_space : space.marks = [.space] := rfl

@[simp] theorem marks_orSpace : (line .orSpace).marks = [.space] := rfl

@[simp] theorem marks_orNil : (line .orNil).marks = [] := rfl

@[simp] theorem marks_hard : (line .hard).marks = [] := rfl

/-- **Parts**, read. -/
def read (parts : List Part) : Reading Content := .ofMarks (parts.flatMap marks)

theorem read_cons (part : Part) (parts : List Part) :
    read (part :: parts) = .ofMarks (part.marks ++ parts.flatMap marks) := rfl

theorem read_cons_congr (part : Part) {xs ys : List Part} (h : read xs = read ys) :
    read (part :: xs) = read (part :: ys) :=
  Reading.ofMarks_append_congr part.marks h

/-! ## Children and their parts read alike

A separator that stands for no whitespace, or for whitespace with a line break, is no space. -/

@[simp] theorem marks_separatorWithout (localized : Bool) (word : String) (child : Child)
    (next : Option Child) : (separatorWithout localized word child next).marks = [] := by
  rw [separatorWithout]
  split_ifs <;> rfl

@[simp] theorem marks_separatorForBreak (localized : Bool) (word : String) (child : Child)
    (next : Option Child) : (separatorForBreak localized word child next).marks = [] := by
  rw [separatorForBreak]
  split_ifs <;> rfl

@[simp] theorem marks_separatorAfter (localized : Bool) (child : Child) (next : Option Child) :
    (separatorAfter localized child next).marks = [] := by
  rcases next with _ | raw | _
  · rfl
  · simp only [separatorAfter]
    split_ifs
    · exact marks_separatorWithout ..
    · rfl
  · rfl

theorem flatMap_marks_ofLeading (localized : Bool) (firstWord : String) (child : Child)
    (next : Option Child) (leading : Option Whitespace) :
    (ofLeading localized firstWord child next leading).flatMap marks =
      Whitespace.edgeMarks leading := by
  rcases leading with _ | _ | _ | _ <;>
    simp [ofLeading, Whitespace.edgeMarks]

theorem marks_ofTrailing (localized : Bool) (lastWord : String) (child : Child)
    (next : Option Child) (trailing : Option Whitespace) :
    (ofTrailing localized lastWord child next trailing).marks = Whitespace.edgeMarks trailing := by
  rcases trailing with _ | _ | _ | _
  · exact marks_separatorWithout ..
  · rfl
  · exact marks_separatorForBreak ..
  · exact marks_separatorForBreak ..

theorem flatMap_marks_words (words : List String) :
    ((words.map Part.word).intersperse (.line .orSpace)).flatMap marks =
      (words.map fun word => Mark.item (Content.word word)).intersperse .space := by
  induction words with
  | nil => rfl
  | cons word words ih =>
    cases words with
    | nil => rfl
    | cons next words =>
      simp only [List.map_cons, List.intersperse_cons_cons] at ih ⊢
      rw [List.flatMap_cons, List.flatMap_cons, ih]
      rfl

/-- The parts of a child read as the child does. -/
theorem flatMap_marks_ofChild (localized : Bool) (child : Child) (next : Option Child) :
    (ofChild localized child next).flatMap marks = child.marks := by
  cases child with
  | printed kind doc => simp [ofChild, Child.marks]
  | text raw =>
    rw [ofChild, Child.marks]
    cases TextContent.ofText raw with
    | blank whitespace => cases whitespace <;> rfl
    | words leading words trailing =>
      simp only [ofText, List.flatMap_append, flatMap_marks_ofLeading, flatMap_marks_words,
        List.flatMap_cons, marks_ofTrailing, List.flatMap_nil, List.append_nil, TextContent.marks]

theorem read_ofChildren (localized : Bool) (children : List Child) :
    read (ofChildren localized children) = Child.read children := by
  rw [read, Child.read]
  congr 1
  induction children with
  | nil => rfl
  | cons child children ih =>
    rw [ofChildren, List.flatMap_append, flatMap_marks_ofChild, ih, List.flatMap_cons]

/-! ## Merging reads the same -/

/-- Whatever a step of merging takes away, it is no content and not the only space. -/
theorem read_mergeStep (hasText : Bool) (part : Part) (merged : List Part) :
    read (mergeStep hasText part merged) = read (part :: merged) := by
  rw [mergeStep.eq_def]
  split
  · rfl
  · split <;> rfl
  all_goals simp [read]

theorem read_merge (hasText : Bool) (parts : List Part) :
    read (merge hasText parts) = read parts := by
  induction parts with
  | nil => rfl
  | cons part parts ih =>
    rw [merge_cons, read_mergeStep]
    exact read_cons_congr part ih

/-! ## The normal form

Merging works from the right, so what one child adds meets parts that are merged already. -/

/-- A content that is there. -/
def isFilled : Part → Bool
  | word _ | printed _ => true
  | empty | space | line _ => false

/-- No content stands first. -/
def startsEmpty : List Part → Bool
  | .empty :: _ => true
  | _ => false

/-- No content stands first, and a space after it. -/
def startsSpace : List Part → Bool
  | .empty :: .space :: _ => true
  | _ => false

theorem ne_empty_of_isFilled {content : Part} (h : content.isFilled) : content ≠ .empty := by
  rintro rfl
  cases h

theorem startsEmpty_of_isFilled {content : Part} (h : content.isFilled) (rest : List Part) :
    startsEmpty (content :: rest) = false := by
  cases content with
  | word | printed => rfl
  | empty | space | line => cases h

theorem startsSpace_of_not_startsEmpty {parts : List Part} (h : startsEmpty parts = false) :
    startsSpace parts = false := by
  unfold startsSpace
  split <;> simp_all [startsEmpty]

/-- **Merged parts**: contents and separators in turn.  A separator before an empty content would
have been merged with the next one, but for a line before another: two hard lines without text are
an empty line, and two soft ones stay two. -/
inductive Merged (hasText : Bool) : List Part → Prop
  | nil : Merged hasText []
  | space {content : Part} {rest : List Part} (filled : content = .empty ∨ content.isFilled)
      (text : hasText = true) (next : startsEmpty rest = false) (tail : Merged hasText rest) :
      Merged hasText (content :: .space :: rest)
  /-- The line between two words of one text. -/
  | inText {s t : String} {rest : List Part} (tail : Merged hasText (.word t :: rest)) :
      Merged hasText (.word s :: .line .orSpace :: .word t :: rest)
  | line {content : Part} {kind : LineKind} {rest : List Part}
      (filled : content = .empty ∨ content.isFilled) (plain : kind ≠ .orSpace)
      (next : startsSpace rest = false)
      (blank : content = .empty → hasText = true → startsEmpty rest = false)
      (tail : Merged hasText rest) : Merged hasText (content :: .line kind :: rest)
  /-- The separator of localized text that lets nothing in. -/
  | nothing {content : Part} {rest : List Part} (filled : content.isFilled)
      (next : startsEmpty rest = false) (tail : Merged hasText rest) :
      Merged hasText (content :: .empty :: rest)

variable {hasText : Bool}

theorem mergeStep_of_isFilled {content : Part} (h : content.isFilled) (merged : List Part) :
    mergeStep hasText content merged = content :: merged := by
  cases content with
  | word | printed => rfl
  | empty | space | line => simp [isFilled] at h

/-- A content before a separator is not merged with it. -/
theorem mergeStep_content {content : Part} (h : content = .empty ∨ content.isFilled)
    {merged : List Part} (hm : startsEmpty merged = false) :
    mergeStep hasText content merged = content :: merged := by
  rcases h with rfl | h
  · unfold mergeStep
    split <;> simp_all [startsEmpty]
  · exact mergeStep_of_isFilled h merged

/-- A separator before a content that is there is not merged with anything. -/
theorem mergeStep_of_not_startsEmpty (part : Part) {merged : List Part}
    (hm : startsEmpty merged = false) : mergeStep hasText part merged = part :: merged := by
  unfold mergeStep
  split <;> simp_all [startsEmpty]

namespace Merged

/-- Merged parts with an empty content in front begin with a space or with a line. -/
theorem of_startsEmpty {merged : List Part} (h : Merged hasText merged)
    (hs : startsEmpty merged = true) :
    (∃ rest, merged = .empty :: .space :: rest ∧ hasText = true ∧ startsEmpty rest = false ∧
      Merged hasText rest) ∨
    ∃ kind rest, merged = .empty :: .line kind :: rest ∧ kind ≠ .orSpace ∧
      startsSpace rest = false ∧ (hasText = true → startsEmpty rest = false) ∧
      Merged hasText rest := by
  cases h with
  | nil | inText => simp [startsEmpty] at hs
  | space filled text next tail =>
    obtain rfl | filled := filled
    · exact .inl ⟨_, rfl, text, next, tail⟩
    · simp [startsEmpty_of_isFilled filled] at hs
  | line filled plain next blank tail =>
    obtain rfl | filled := filled
    · exact .inr ⟨_, _, rfl, plain, next, blank rfl, tail⟩
    · simp [startsEmpty_of_isFilled filled] at hs
  | nothing filled => simp [startsEmpty_of_isFilled filled] at hs

section Push

variable {content : Part} {merged : List Part}

/-- A **space** takes in what it meets, another space or a line. -/
theorem push_space (hc : content = .empty ∨ content.isFilled) (text : hasText = true)
    (h : Merged hasText merged) :
    Merged hasText (mergeStep hasText content (mergeStep hasText .space merged)) := by
  cases hs : startsEmpty merged with
  | false =>
    rw [mergeStep_of_not_startsEmpty .space hs, mergeStep_content hc rfl]
    exact .space hc text hs h
  | true =>
    obtain ⟨rest, rfl, -, next, tail⟩ | ⟨kind, rest, rfl, plain, -, next, tail⟩ :=
      h.of_startsEmpty hs
    · rw [show mergeStep hasText .space (.empty :: .space :: rest) = .space :: rest from rfl,
        mergeStep_content hc rfl]
      exact .space hc text next tail
    · have hstep : mergeStep hasText .space (.empty :: .line kind :: rest) = .space :: rest := by
        cases kind with
        | orSpace => exact absurd rfl plain
        | orNil | hard => rfl
      rw [hstep, mergeStep_content hc rfl]
      exact .space hc text (next text) tail

/-- A **hard line** gives way to a space, and takes in a soft line; of two hard lines
with text one is left. -/
theorem push_hard (hc : content = .empty ∨ content.isFilled) (h : Merged hasText merged) :
    Merged hasText (mergeStep hasText content (mergeStep hasText (.line .hard) merged)) := by
  cases hs : startsEmpty merged with
  | false =>
    rw [mergeStep_of_not_startsEmpty _ hs, mergeStep_content hc rfl]
    exact .line hc (by decide) (startsSpace_of_not_startsEmpty hs) (fun _ _ => hs) h
  | true =>
    obtain ⟨rest, rfl, text, next, tail⟩ | ⟨kind, rest, rfl, plain, hspace, next, tail⟩ :=
      h.of_startsEmpty hs
    · rw [show mergeStep hasText (.line .hard) (.empty :: .space :: rest) = .space :: rest from rfl,
        mergeStep_content hc rfl]
      exact .space hc text next tail
    · cases kind with
      | orSpace => exact absurd rfl plain
      | orNil =>
        rw [show mergeStep hasText (.line .hard) (.empty :: .line .orNil :: rest) =
          .line .hard :: rest from rfl, mergeStep_content hc rfl]
        exact .line hc (by decide) hspace (fun _ => next) tail
      | hard =>
        cases hasText with
        | true =>
          rw [show mergeStep true (.line .hard) (.empty :: .line .hard :: rest) =
            .line .hard :: rest from rfl, mergeStep_content hc rfl]
          exact .line hc (by decide) hspace (fun _ => next) tail
        | false =>
          rw [show mergeStep false (.line .hard) (.empty :: .line .hard :: rest) =
            .line .hard :: .empty :: .line .hard :: rest from rfl, mergeStep_content hc rfl]
          exact .line hc (by decide) rfl (fun _ hf => absurd hf (by decide)) h

/-- A **soft line** gives way to a space or a hard line, and stays before another soft line. -/
theorem push_orNil (hc : content = .empty ∧ startsEmpty merged = false ∨ content.isFilled)
    (h : Merged hasText merged) :
    Merged hasText (mergeStep hasText content (mergeStep hasText (.line .orNil) merged)) := by
  have hc' : content = .empty ∨ content.isFilled := hc.imp And.left id
  cases hs : startsEmpty merged with
  | false =>
    rw [mergeStep_of_not_startsEmpty _ hs, mergeStep_content hc' rfl]
    exact .line hc' (by decide) (startsSpace_of_not_startsEmpty hs) (fun _ _ => hs) h
  | true =>
    have hfilled : content.isFilled := hc.resolve_left fun h' => by simp [hs] at h'
    have hne := ne_empty_of_isFilled hfilled
    rw [mergeStep_of_isFilled hfilled]
    obtain ⟨rest, rfl, text, next, tail⟩ | ⟨kind, rest, rfl, plain, hspace, next, tail⟩ :=
      h.of_startsEmpty hs
    · exact .space hc' text next tail
    · cases kind with
      | orSpace => exact absurd rfl plain
      | orNil => exact .line hc' (by decide) rfl (fun he => absurd he hne) h
      | hard => exact .line hc' (by decide) hspace (fun he => absurd he hne) tail

/-- **Nothing** as a separator leaves the next one to stand for both. -/
theorem push_nothing (hc : content.isFilled) (h : Merged hasText merged) :
    Merged hasText (mergeStep hasText content (mergeStep hasText .empty merged)) := by
  have hne := ne_empty_of_isFilled hc
  rw [mergeStep_of_isFilled hc]
  cases hs : startsEmpty merged with
  | false =>
    rw [mergeStep_of_not_startsEmpty _ hs]
    exact .nothing hc hs h
  | true =>
    obtain ⟨rest, rfl, text, next, tail⟩ | ⟨kind, rest, rfl, plain, hspace, next, tail⟩ :=
      h.of_startsEmpty hs
    · exact .space (.inr hc) text next tail
    · exact .line (.inr hc) plain hspace (fun he => absurd he hne) tail

end Push

end Merged

/-! ## One child more

The parts of a child are pushed in front of what is merged, its last separator first. -/

/-- The separators a child can end with, and those before the first word of a text. -/
theorem separatorWithout_cases (localized : Bool) (word : String) (child : Child)
    (next : Option Child) :
    separatorWithout localized word child next = .empty ∨
      separatorWithout localized word child next = .line .hard ∨
      separatorWithout localized word child next = .line .orNil := by
  unfold separatorWithout
  split_ifs <;> simp

theorem separatorForBreak_cases (localized : Bool) (word : String) (child : Child)
    (next : Option Child) :
    separatorForBreak localized word child next = .line .hard ∨
      separatorForBreak localized word child next = .line .orNil := by
  unfold separatorForBreak
  split_ifs <;> simp

theorem separatorAfter_cases (localized : Bool) (child : Child) (next : Option Child) :
    separatorAfter localized child next = .empty ∨
      separatorAfter localized child next = .line .hard ∨
      separatorAfter localized child next = .line .orNil := by
  rcases next with _ | raw | _
  · exact .inr (.inl rfl)
  · simp only [separatorAfter]
    split_ifs
    · exact separatorWithout_cases ..
    · exact .inr (.inl rfl)
  · exact .inr (.inl rfl)

theorem ofTrailing_cases (localized : Bool) (lastWord : String) (child : Child)
    (next : Option Child) (trailing : Option Whitespace) :
    ofTrailing localized lastWord child next trailing = .space ∨
      ofTrailing localized lastWord child next trailing = .empty ∨
      ofTrailing localized lastWord child next trailing = .line .hard ∨
      ofTrailing localized lastWord child next trailing = .line .orNil := by
  rcases trailing with _ | _ | _ | _
  · exact .inr (separatorWithout_cases ..)
  · exact .inl rfl
  · exact .inr (.inr (separatorForBreak_cases ..))
  · exact .inr (.inr (separatorForBreak_cases ..))

/-- The words of a text, merged with what follows the last of them.  What holds of **the last word**
and is kept by a word in front of another holds of all of them. -/
theorem foldr_words {P : List Part → Prop} {separator : Part} {merged : List Part}
    (last : ∀ word, P (.word word :: mergeStep hasText separator merged))
    (inText : ∀ s t rest, P (.word t :: rest) → P (.word s :: .line .orSpace :: .word t :: rest))
    (word : String) (words : List String) :
    ∃ rest, (((word :: words).map Part.word).intersperse (.line .orSpace) ++ [separator]).foldr
        (mergeStep hasText) merged = .word word :: rest ∧ P (.word word :: rest) := by
  induction words generalizing word with
  | nil => exact ⟨mergeStep hasText separator merged, rfl, last word⟩
  | cons next words ih =>
    obtain ⟨rest, hrest, hnext⟩ := ih next
    refine ⟨.line .orSpace :: .word next :: rest, ?_, inText word next rest hnext⟩
    rw [List.map_cons] at hrest
    rw [List.map_cons, List.map_cons, List.intersperse_cons_cons, List.cons_append,
      List.cons_append, List.foldr_cons, List.foldr_cons, hrest]
    rfl

namespace Merged

variable {merged : List Part}

/-- A content that is there, with any separator but that between words. -/
theorem push_filled {content separator : Part} (hc : content.isFilled)
    (hs : separator = .space ∧ hasText = true ∨ separator = .empty ∨ separator = .line .hard ∨
      separator = .line .orNil)
    (h : Merged hasText merged) :
    Merged hasText (mergeStep hasText content (mergeStep hasText separator merged)) := by
  obtain ⟨rfl, text⟩ | rfl | rfl | rfl := hs
  · exact h.push_space (.inr hc) text
  · exact h.push_nothing hc
  · exact h.push_hard (.inr hc)
  · exact h.push_orNil (.inr hc)

/-- The words of a text, with what follows the last of them. -/
theorem push_words {separator : Part}
    (hs : separator = .space ∧ hasText = true ∨ separator = .empty ∨ separator = .line .hard ∨
      separator = .line .orNil)
    (h : Merged hasText merged) (word : String) (words : List String) :
    ∃ rest, (((word :: words).map Part.word).intersperse (.line .orSpace) ++ [separator]).foldr
        (mergeStep hasText) merged = .word word :: rest ∧ Merged hasText (.word word :: rest) := by
  refine foldr_words (fun word => ?_) (fun _ _ _ => .inText) word words
  rw [← @mergeStep_of_isFilled hasText (.word word) rfl]
  exact h.push_filled rfl hs

/-- The parts before the first word of a text, in front of that word. -/
theorem push_leading (localized : Bool) (firstWord : String) (child : Child) (next : Option Child)
    (leading : Option Whitespace) (text : hasText = true) {rest : List Part} {word : String}
    (h : Merged hasText (.word word :: rest)) :
    Merged hasText ((ofLeading localized firstWord child next leading).foldr (mergeStep hasText)
      (.word word :: rest)) := by
  have hline : Merged hasText (mergeStep hasText .empty (mergeStep hasText
      (separatorForBreak localized firstWord child next) (.word word :: rest))) := by
    obtain hsep | hsep := separatorForBreak_cases localized firstWord child next
    · rw [hsep]
      exact h.push_hard (.inl rfl)
    · rw [hsep]
      exact h.push_orNil (.inl ⟨rfl, rfl⟩)
  rcases leading with _ | _ | _ | _
  · exact h
  · exact h.push_space (.inl rfl) text
  · exact hline
  · exact hline

/-- The parts of a **child**.  One that counts is text, or no text has to be there. -/
theorem push_child (localized : Bool) (child : Child) (next : Option Child)
    (text : child.isMeaningfulText = true → hasText = true) (h : Merged hasText merged) :
    Merged hasText ((ofChild localized child next).foldr (mergeStep hasText) merged) := by
  cases child with
  | printed kind doc =>
    exact h.push_filled rfl (.inr (separatorAfter_cases ..))
  | text raw =>
    have htext : (∀ run, TextContent.ofText raw = .blank run → run.spansLines = false) →
        hasText = true := fun hrun => text <| by
      rw [Child.isMeaningfulText, ← Bool.not_eq_false, TextContent.isMeaningful_eq_false_iff]
      rintro ⟨run, hof, hspans⟩
      rw [hrun run hof] at hspans
      cases hspans
    rw [ofChild]
    cases hof : TextContent.ofText raw with
    | blank run =>
      cases run with
      | space =>
        exact h.push_space (.inl rfl) (htext fun run hrun => by simp_all [Whitespace.spansLines])
      | lineBreak => exact h
      | blankLine => exact h.push_hard (.inl rfl)
    | words leading inner trailing =>
      have ht : hasText = true := htext fun run hrun => by simp [hof] at hrun
      obtain ⟨word, words, rfl⟩ := List.exists_cons_of_ne_nil (TextContent.words_ne_nil hof)
      obtain ⟨rest, hrest, hmerged⟩ := h.push_words
        ((ofTrailing_cases localized ((word :: words).getLastD "")
          (.text raw) next trailing).imp_left fun hs => ⟨hs, ht⟩) word words
      rw [ofText, List.append_assoc, List.foldr_append, hrest]
      exact hmerged.push_leading localized _ _ next leading ht

end Merged

/-- **Merging makes parts merged.** -/
theorem merged_merge (localized : Bool) {children : List Child}
    (text : ∀ child ∈ children, child.isMeaningfulText = true → hasText = true) :
    Merged hasText (merge hasText (ofChildren localized children)) := by
  induction children with
  | nil => exact .nil
  | cons child children ih =>
    rw [ofChildren, merge, List.foldr_append]
    exact (ih fun c hc => text c (List.mem_cons_of_mem child hc)).push_child localized child _
      (text child List.mem_cons_self)

end Part

end Reflow
