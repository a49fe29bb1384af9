import Reflow.Proofs.Markup.Trimming

/-!
# Proofs/Markup/Alternating — contents and separators in turn

The parts of children are contents and separators in turn (`Part.alternating_ofChildren`), and in
localized text an empty part may be either.  Merging and trimming never see which is which; they
take parts away in pairs, and so keep whatever alternates where it is (`Part.alternating_merge`,
`Part.alternating_trim`).
-/

namespace Reflow

/-! ## Lists that alternate -/

section Alternating

variable {α : Type}

/-- Members of a list that satisfy `P` and `Q` **in turn**, the first one `P`. -/
def Alternating (P Q : α → Prop) : List α → Prop
  | [] => True
  | first :: rest => P first ∧ Alternating Q P rest

variable {P Q : α → Prop} {xs ys : List α}

/-- So those at even positions satisfy `P`, and those at odd ones `Q`. -/
theorem alternating_iff_getElem? :
    Alternating P Q xs ↔ ∀ i x, xs[i]? = some x → if i % 2 = 0 then P x else Q x := by
  induction xs generalizing P Q with
  | nil => simp [Alternating]
  | cons first rest ih =>
    have hparity (i : Nat) : (i + 1) % 2 = 0 ↔ ¬ i % 2 = 0 := by omega
    rw [Alternating, ih]
    constructor
    · rintro ⟨hfirst, hrest⟩ (_ | i) x hx
      · obtain rfl : first = x := by simpa using hx
        exact hfirst
      · have h := hrest i x (by simpa using hx)
        split_ifs at h ⊢ <;> first | exact h | omega
    · intro h
      refine ⟨by simpa using h 0 first, fun i x hx => ?_⟩
      have hnext := h (i + 1) x (by simpa using hx)
      split_ifs at hnext ⊢ <;> first | exact hnext | omega

namespace Alternating

/-- A list may stop **anywhere**. -/
theorem of_isPrefix (h : Alternating P Q ys) (hinit : xs <+: ys) : Alternating P Q xs := by
  rw [alternating_iff_getElem?] at h ⊢
  intro i x hx
  obtain ⟨_, rfl⟩ := hinit
  exact h i x ((List.getElem?_append_left (List.getElem?_eq_some_iff.mp hx).1).trans hx)

/-- Behind an even number of members the turn **starts again**. -/
theorem append {xs : List α} (h : Alternating P Q xs) (heven : xs.length % 2 = 0)
    (h' : Alternating P Q ys) : Alternating P Q (xs ++ ys) := by
  match xs, h with
  | [], _ => exact h'
  | [_], _ => cases heven
  | first :: second :: rest, ⟨hfirst, hsecond, hrest⟩ =>
    refine ⟨hfirst, hsecond, hrest.append ?_ h'⟩
    simp only [List.length_cons] at heven
    omega

end Alternating

end Alternating

namespace Part

/-! ## From children -/

/-- A part that stands where **contents** do. -/
def IsContent (part : Part) : Prop := part = .empty ∨ part.isFilled

/-- A part that stands where **separators** do.  Only localized text has an empty one. -/
def IsSeparator (localized : Bool) (part : Part) : Prop :=
  part = .space ∨ (∃ kind, part = .line kind) ∨ localized = true ∧ part = .empty

theorem isSeparator_line (localized : Bool) (kind : LineKind) :
    IsSeparator localized (.line kind) :=
  .inr (.inl ⟨kind, rfl⟩)

variable {localized : Bool} {word : String} {child : Child} {next : Option Child}

theorem isSeparator_separatorWithout :
    IsSeparator localized (separatorWithout localized word child next) := by
  rw [separatorWithout]
  split_ifs with hlocalized
  · exact .inr (.inr ⟨hlocalized, rfl⟩)
  · exact isSeparator_line ..
  · exact isSeparator_line ..

theorem isSeparator_separatorForBreak :
    IsSeparator localized (separatorForBreak localized word child next) := by
  obtain heq | heq := separatorForBreak_cases localized word child next
  · exact heq ▸ isSeparator_line ..
  · exact heq ▸ isSeparator_line ..

theorem isSeparator_separatorAfter :
    IsSeparator localized (separatorAfter localized child next) := by
  rcases next with _ | raw | _
  · exact isSeparator_line ..
  · simp only [separatorAfter]
    split_ifs
    · exact isSeparator_separatorWithout
    · exact isSeparator_line ..
  · exact isSeparator_line ..

theorem isSeparator_ofTrailing (trailing : Option Whitespace) :
    IsSeparator localized (ofTrailing localized word child next trailing) := by
  rcases trailing with _ | _ | _ | _
  · exact isSeparator_separatorWithout
  · exact .inl rfl
  · exact isSeparator_separatorForBreak
  · exact isSeparator_separatorForBreak

/-- Words with **the line between words** and a separator behind the last one. -/
theorem alternating_words {separator : Part} (h : IsSeparator localized separator) (word : String)
    (words : List String) :
    let parts := ((word :: words).map Part.word).intersperse (.line .orSpace) ++ [separator]
    Alternating IsContent (IsSeparator localized) parts ∧ parts.length % 2 = 0 := by
  induction words generalizing word with
  | nil => exact ⟨⟨.inr rfl, h, trivial⟩, by simp⟩
  | cons next words ih =>
    obtain ⟨hparts, heven⟩ := ih next
    simp only [List.map_cons, List.intersperse_cons_cons, List.cons_append] at hparts heven ⊢
    refine ⟨⟨.inr rfl, isSeparator_line .., hparts⟩, ?_⟩
    rw [List.length_cons, List.length_cons]
    omega

/-- The parts of **one child**, an even number of them. -/
theorem alternating_ofChild (localized : Bool) (child : Child) (next : Option Child) :
    Alternating IsContent (IsSeparator localized) (ofChild localized child next) ∧
      (ofChild localized child next).length % 2 = 0 := by
  cases child with
  | printed kind doc => exact ⟨⟨.inr rfl, isSeparator_separatorAfter, trivial⟩, by simp [ofChild]⟩
  | text raw =>
    rw [ofChild]
    cases hof : TextContent.ofText raw with
    | blank run =>
      cases run with
      | space => exact ⟨⟨.inl rfl, .inl rfl, trivial⟩, by simp [ofText]⟩
      | lineBreak => exact ⟨trivial, rfl⟩
      | blankLine => exact ⟨⟨.inl rfl, isSeparator_line .., trivial⟩, by simp [ofText]⟩
    | words leading inner trailing =>
      obtain ⟨word, words, rfl⟩ := List.exists_cons_of_ne_nil (TextContent.words_ne_nil hof)
      have hleading : Alternating IsContent (IsSeparator localized)
            (ofLeading localized ((word :: words).headD "") (.text raw) next leading) ∧
          (ofLeading localized ((word :: words).headD "") (.text raw) next
            leading).length % 2 = 0 := by
        rcases leading with _ | _ | _ | _
        · exact ⟨trivial, rfl⟩
        · exact ⟨⟨.inl rfl, .inl rfl, trivial⟩, by simp [ofLeading]⟩
        · exact ⟨⟨.inl rfl, isSeparator_separatorForBreak, trivial⟩, by simp [ofLeading]⟩
        · exact ⟨⟨.inl rfl, isSeparator_separatorForBreak, trivial⟩, by simp [ofLeading]⟩
      obtain ⟨hwords, heven⟩ := alternating_words (isSeparator_ofTrailing trailing) word words
      rw [ofText, List.append_assoc]
      refine ⟨hleading.1.append hleading.2 hwords, ?_⟩
      rw [List.length_append, Nat.add_mod, hleading.2, heven]

/-- **The parts of children alternate**, and end with a separator. -/
theorem alternating_ofChildren (localized : Bool) (children : List Child) :
    Alternating IsContent (IsSeparator localized) (ofChildren localized children) ∧
      (ofChildren localized children).length % 2 = 0 := by
  induction children with
  | nil => exact ⟨trivial, rfl⟩
  | cons child children ih =>
    obtain ⟨hchild, heven⟩ := alternating_ofChild localized child children.head?
    rw [ofChildren]
    refine ⟨hchild.append heven ih.1, ?_⟩
    rw [List.length_append, Nat.add_mod, heven, ih.2]

/-! ## Merging and trimming -/

section Merging

variable {P Q : Part → Prop} {hasText : Bool} {part : Part} {merged parts : List Part}

/-- A step of merging takes away **two parts or none**, and of two that it joins it keeps one. -/
theorem alternating_mergeStep (hpart : P part) (h : Alternating Q P merged) :
    Alternating P Q (mergeStep hasText part merged) := by
  rw [mergeStep.eq_def]
  split
  · exact h.2
  · split_ifs
    · exact ⟨hpart, h.2.2⟩
    · exact ⟨hpart, h⟩
  -- of two separators the first or the second is kept, and in all other cases everything
  all_goals first | exact h.2 | exact ⟨hpart, h.2.2⟩ | exact ⟨hpart, h⟩

/-- **Merging keeps parts in turn**, whatever it is that alternates. -/
theorem alternating_merge (hasText : Bool) (h : Alternating P Q parts) :
    Alternating P Q (merge hasText parts) := by
  induction parts generalizing P Q with
  | nil => trivial
  | cons part parts ih => exact alternating_mergeStep h.1 (ih h.2)

theorem trimEnd_isPrefix (parts : List Part) : trimEnd parts <+: parts := by
  rw [trimEnd, ← List.reverse_suffix, List.reverse_reverse]
  exact List.dropWhile_suffix _

theorem alternating_trimStart {parts : List Part} (h : Alternating P Q parts) :
    Alternating P Q (trimStart parts) := by
  match parts with
  | [] | [_] => exact h
  | first :: second :: rest =>
    rw [trimStart]
    split_ifs
    · exact alternating_trimStart h.2.2
    · exact h

/-- So does **trimming**. -/
theorem alternating_trim (h : Alternating P Q parts) : Alternating P Q (trim parts) :=
  alternating_trimStart (h.of_isPrefix (trimEnd_isPrefix parts))

end Merging

/-- The parts that are laid out are **contents and separators in turn**. -/
theorem alternating_arrange (localized hasText : Bool) (children : List Child) :
    Alternating IsContent (IsSeparator localized) (arrange localized hasText children) :=
  alternating_trim (alternating_merge hasText (alternating_ofChildren localized children).1)

end Part

end Reflow
