import Reflow.Proofs.Markup.Children
import Reflow.Proofs.Markup.Row
import Reflow.Proofs.Markup.Separators

/-!
# Proofs/Markup/Wrapped — the two shapes of what is laid out

With text among the children, what is laid out is contents and separators in turn, and nothing is
missing between two separators but where both are soft lines (`Part.wrapped_arrange`).  Without text
it is printed children with hard lines between them, and nothing between two of these is an empty
line (`Part.isStack_arrange`).
-/

namespace Reflow.Part

variable {localized : Bool} {parts : List Part}

/-! ## Contents and separators in turn -/

/-- **Wrapped parts**: contents with separators between them, up to the last content or the space
after it.  Nothing is missing between two separators but where both are soft lines. -/
inductive Wrapped (localized : Bool) : List Part → Prop
  | last {content : Part} (filled : content.isFilled) : Wrapped localized [content]
  | lastSpace {content : Part} (filled : content.isFilled) : Wrapped localized [content, .space]
  | cons {content separator : Part} {rest : List Part} (filled : content.isFilled)
      (between : IsSeparator localized separator) (tail : Wrapped localized rest) :
      Wrapped localized (content :: separator :: rest)
  | softLines {content : Part} {rest : List Part} (filled : content.isFilled)
      (tail : Wrapped localized rest) :
      Wrapped localized (content :: .line .orNil :: .empty :: .line .orNil :: rest)

theorem Wrapped.ne_nil (h : Wrapped localized parts) : parts ≠ [] := by
  cases h <;> exact List.cons_ne_nil _ _

/-- What is trimmed of compact parts at their end leaves **nothing or wrapped parts**. -/
theorem Compact.wrapped_trimEnd (h : Compact localized parts)
    (hstarts : startsEmpty parts = false)
    (halternating : Alternating IsContent (IsSeparator localized) (trimEnd parts)) :
    trimEnd parts = [] ∨ Wrapped localized (trimEnd parts) := by
  induction h with
  | nil => exact .inl rfl
  | @cons content separator rest filled next tail ih =>
    rw [trimEnd_cons_of_not _ (isLineOrEmpty_of_isFilled filled)] at halternating ⊢
    by_cases hrest : trimEnd rest = []
    · rw [trimEnd_cons_of_eq_nil _ hrest] at halternating ⊢
      split_ifs at halternating ⊢ with hline
      · exact .inr (.last filled)
      · obtain rfl | ⟨kind, rfl⟩ | ⟨-, rfl⟩ := halternating.2.1
        · exact .inr (.lastSpace filled)
        · exact absurd rfl hline
        · exact absurd rfl hline
    · rw [trimEnd_cons_of_ne_nil _ hrest] at halternating ⊢
      obtain ⟨-, hbetween, hrestAlternating⟩ := halternating
      exact .inr (.cons filled hbetween ((ih next hrestAlternating).resolve_left hrest))
  | opening => cases hstarts
  | @softLines content rest filled plain letter tail ih =>
    have hrest : trimEnd rest ≠ [] := by
      obtain ⟨word, hhead, -⟩ := letter
      obtain ⟨others, rfl⟩ := List.head?_eq_some_iff.mp hhead
      exact trimEnd_cons_ne_nil others rfl
    have hlater : trimEnd (.empty :: .line .orNil :: rest) =
        .empty :: .line .orNil :: trimEnd rest := by
      have hline := trimEnd_cons_of_ne_nil (.line .orNil) hrest
      rw [trimEnd_cons_of_ne_nil _ (by simp [hline]), hline]
    have htrim : trimEnd (content :: .line .orNil :: .empty :: .line .orNil :: rest) =
        content :: .line .orNil :: .empty :: .line .orNil :: trimEnd rest := by
      have hne : trimEnd (.empty :: .line .orNil :: rest) ≠ [] := by simp [hlater]
      rw [trimEnd_cons_of_not _ (isLineOrEmpty_of_isFilled filled),
        trimEnd_cons_of_ne_nil _ hne, hlater]
    rw [htrim] at halternating ⊢
    obtain ⟨-, -, -, -, hrestAlternating⟩ := halternating
    exact .inr
      (.softLines filled ((ih letter.startsEmpty_eq_false hrestAlternating).resolve_left hrest))

/-- The parts that are laid out **with text among the children**: wrapped parts, or a space in front
of these or alone. -/
theorem wrapped_arrange (localized : Bool) {children : List Child}
    (text : children.any Child.isMeaningfulText = true) :
    let parts := arrange localized (children.any Child.isMeaningfulText) children
    Wrapped localized parts ∨
      ∃ rest, parts = .empty :: .space :: rest ∧ (rest = [] ∨ Wrapped localized rest) := by
  intro parts
  have hne : parts ≠ [] := arrange_ne_nil localized text
  have halternating : Alternating IsContent (IsSeparator localized) parts := alternating_arrange ..
  obtain ⟨kept, hcompact, hstarts, htrim⟩ := (Compact.of_merge localized children).exists_trim_eq
  have hparts : parts = trimEnd kept := by
    rw [← htrim, ← text]
    rfl
  rw [hparts] at hne halternating ⊢
  cases hempty : startsEmpty kept with
  | false => exact .inl ((hcompact.wrapped_trimEnd hempty halternating).resolve_left hne)
  | true =>
    obtain ⟨separator, rest, rfl, -, next, tail⟩ := hcompact.of_startsEmpty hempty
    obtain rfl : separator = .space := by
      have hspace := hstarts hempty
      unfold startsSpace at hspace
      split at hspace
      · next heq => exact (List.cons.inj (List.cons.inj heq).2).1
      · cases hspace
    rw [trimEnd_cons_space] at halternating ⊢
    exact .inr ⟨_, rfl, tail.wrapped_trimEnd next halternating.2.2⟩

/-! ## Stacks -/

/-- A content of children **without text**. -/
def IsBare (part : Part) : Prop := part = .empty ∨ ∃ doc, part = .printed doc

/-- A **stack**: printed children, or nothing, with hard lines between them. -/
def IsStack (parts : List Part) : Prop := Alternating IsBare (· = .line .hard) parts

theorem isStack_ofChildren (localized : Bool) {children : List Child}
    (text : children.any Child.isMeaningfulText = false) :
    IsStack (ofChildren localized children) := by
  induction children with
  | nil => trivial
  | cons child children ih =>
    obtain ⟨hchild, hlater⟩ := Bool.or_eq_false_iff.mp text
    rw [ofChildren]
    cases child with
    | printed kind doc =>
      have hafter : separatorAfter localized (.printed kind doc) children.head? = .line .hard := by
        cases children with
        | nil => rfl
        | cons next children =>
          cases next with
          | printed => rfl
          | text raw =>
            have hblank : Text.isMeaningful raw = false := (Bool.or_eq_false_iff.mp hlater).1
            rw [List.head?_cons, separatorAfter, hblank, if_neg Bool.false_ne_true]
      exact ⟨.inr ⟨doc, rfl⟩, hafter, ih hlater⟩
    | text raw =>
      obtain ⟨run, hof, hspans⟩ := (TextContent.isMeaningful_eq_false_iff raw).mp hchild
      rw [ofChild, hof]
      cases run with
      | space => cases hspans
      | lineBreak => exact ih hlater
      | blankLine => exact ⟨.inl rfl, rfl, ih hlater⟩

theorem isStack_arrange (localized : Bool) {children : List Child}
    (text : children.any Child.isMeaningfulText = false) (hasText : Bool) :
    IsStack (arrange localized hasText children) :=
  alternating_trim (alternating_merge hasText (isStack_ofChildren localized text))

theorem IsStack.space_not_mem (h : IsStack parts) : .space ∉ parts := by
  intro hmem
  obtain ⟨i, hi⟩ := List.getElem?_of_mem hmem
  have hturn := alternating_iff_getElem?.mp h i .space hi
  split_ifs at hturn
  obtain heq | ⟨doc, heq⟩ := hturn <;> cases heq

/-! ## The two ends -/

/-- A row ends with **a content or a space**. -/
theorem Row.last_isLineOrEmpty (h : Row parts) :
    ∀ last ∈ parts.getLast?, last.isLineOrEmpty = false := by
  induction h with
  | last filled =>
    rintro _ ⟨⟩
    exact isLineOrEmpty_of_isFilled filled
  | lastSpace =>
    rintro _ ⟨⟩
    rfl
  | @space content rest _ tail ih =>
    have hlast : (content :: .space :: rest).getLast? = rest.getLast? :=
      List.getLast?_append_of_ne_nil [content, .space] tail.ne_nil
    rwa [hlast]
  | inText _ ih =>
    rw [List.getLast?_cons_cons, List.getLast?_cons_cons]
    exact ih
  | @loose content separators rest _ _ tail ih =>
    have hlast : (content :: (separators ++ rest)).getLast? = rest.getLast? :=
      List.getLast?_append_of_ne_nil (content :: separators) tail.ne_nil
    rwa [hlast]

theorem Row.startsEmpty_eq_false (h : Row parts) : startsEmpty parts = false := by
  rcases h with filled | filled | ⟨filled, -⟩ | - | ⟨filled, -, -⟩
  · exact startsEmpty_of_isFilled filled _
  · exact startsEmpty_of_isFilled filled _
  · exact startsEmpty_of_isFilled filled _
  · rfl
  · exact startsEmpty_of_isFilled filled _

theorem Spaced.space_mem (h : Spaced parts) : .space ∈ parts := by
  cases h <;> simp

/-- Children that count leave **something to lay out**, text or not. -/
theorem arrange_ne_nil_of_counts (localized : Bool) {children : List Child}
    (h : children.any Child.counts = true) :
    arrange localized (children.any Child.isMeaningfulText) children ≠ [] := by
  cases htext : children.any Child.isMeaningfulText with
  | true => exact htext ▸ arrange_ne_nil localized htext
  | false =>
    intro hnil
    obtain ⟨child, hchild, hcounts⟩ := List.any_eq_true.mp h
    have hcontents := filterMap_content?_arrange localized children
    rw [htext, hnil, List.filterMap_nil, eq_comm, List.flatMap_eq_nil_iff] at hcontents
    cases child with
    | text raw =>
      have hnone := List.any_eq_false.mp htext _ hchild
      exact hnone hcounts
    | printed kind doc => cases hcontents _ hchild

end Reflow.Part
