import Reflow.Proofs.Markup.Alternating

/-!
# Proofs/Markup/Separators — where two separators are left next to each other

With text among the children, merging leaves a content empty in two places only: in front of
everything, and between two soft lines (`Part.getElem?_empty_arrange`).  Every other pair of
separators is joined.  The second soft line stands for the line break before a text whose first word
is a single character, and the first one for nothing between that text and the child before it, so
no space is lost and none printed (`Part.not_merged_softLines`).
-/

namespace Reflow.Part

/-- Parts that start with **a word of one character**. -/
def StartsLetter (parts : List Part) : Prop :=
  ∃ word, parts.head? = some (.word word) ∧ word.length = 1

theorem StartsLetter.startsEmpty_eq_false {parts : List Part} (h : StartsLetter parts) :
    startsEmpty parts = false := by
  obtain ⟨word, hhead, -⟩ := h
  rcases parts with _ | ⟨_ | _ | _ | _ | _, parts⟩
  · rfl
  · cases hhead
  all_goals rfl

/-- **Compact parts**, of children with text among them.  No content is missing between two
separators, unless these are soft lines and a word of one character follows. -/
inductive Compact (localized : Bool) : List Part → Prop
  | nil : Compact localized []
  | cons {content separator : Part} {rest : List Part} (filled : content.isFilled)
      (next : startsEmpty rest = false) (tail : Compact localized rest) :
      Compact localized (content :: separator :: rest)
  /-- In front of everything. -/
  | opening {separator : Part} {rest : List Part}
      (kind : separator = .space ∨ separator = .line .hard ∨
        localized = false ∧ separator = .line .orNil ∧ StartsLetter rest)
      (next : startsEmpty rest = false) (tail : Compact localized rest) :
      Compact localized (.empty :: separator :: rest)
  | softLines {content : Part} {rest : List Part} (filled : content.isFilled)
      (plain : localized = false) (letter : StartsLetter rest) (tail : Compact localized rest) :
      Compact localized (content :: .line .orNil :: .empty :: .line .orNil :: rest)

namespace Compact

variable {localized : Bool} {merged : List Part}

theorem of_startsEmpty (h : Compact localized merged) (hs : startsEmpty merged = true) :
    ∃ separator rest, merged = .empty :: separator :: rest ∧
      (separator = .space ∨ separator = .line .hard ∨
        localized = false ∧ separator = .line .orNil ∧ StartsLetter rest) ∧
      startsEmpty rest = false ∧ Compact localized rest := by
  cases h with
  | nil => cases hs
  | cons filled | softLines filled => rw [startsEmpty_of_isFilled filled] at hs; cases hs
  | opening kind next tail => exact ⟨_, _, rfl, kind, next, tail⟩

/-! ## One child more -/

/-- A content with a separator behind it.  Whatever stands first in what is merged already, the
separator takes it in or gives way to it, but for **a soft line before a soft line**. -/
theorem push_filled {content separator : Part} (filled : content.isFilled)
    (hs : separator = .space ∨ separator = .empty ∨ separator = .line .hard ∨
      separator = .line .orNil) (h : Compact localized merged) :
    Compact localized (content :: mergeStep true separator merged) := by
  cases hstarts : startsEmpty merged with
  | false =>
    rw [mergeStep_of_not_startsEmpty _ hstarts]
    exact .cons filled hstarts h
  | true =>
    obtain ⟨first, rest, rfl, kind, next, tail⟩ := h.of_startsEmpty hstarts
    obtain rfl | rfl | ⟨plain, rfl, letter⟩ := kind
    · obtain rfl | rfl | rfl | rfl := hs <;> exact .cons filled next tail
    · obtain rfl | rfl | rfl | rfl := hs <;> exact .cons filled next tail
    · obtain rfl | rfl | rfl | rfl := hs
      · exact .cons filled next tail
      · exact .cons filled next tail
      · exact .cons filled next tail
      · exact .softLines filled plain letter tail

/-- Blanks alone: a **space or a hard line** takes in what it meets. -/
theorem push_blank {separator : Part} (hs : separator = .space ∨ separator = .line .hard)
    (h : Compact localized merged) :
    Compact localized (mergeStep true .empty (mergeStep true separator merged)) := by
  cases hstarts : startsEmpty merged with
  | false =>
    rw [mergeStep_of_not_startsEmpty _ hstarts]
    obtain rfl | rfl := hs
    · exact .opening (.inl rfl) hstarts h
    · exact .opening (.inr (.inl rfl)) hstarts h
  | true =>
    obtain ⟨first, rest, rfl, kind, next, tail⟩ := h.of_startsEmpty hstarts
    obtain rfl | rfl := hs
    · obtain rfl | rfl | ⟨-, rfl, -⟩ := kind <;> exact .opening (.inl rfl) next tail
    · obtain rfl | rfl | ⟨-, rfl, -⟩ := kind
      · exact .opening (.inl rfl) next tail
      · exact .opening (.inr (.inl rfl)) next tail
      · exact .opening (.inr (.inl rfl)) next tail

/-- The words of a text, with what follows the last of them. -/
theorem push_words {separator : Part}
    (hs : separator = .space ∨ separator = .empty ∨ separator = .line .hard ∨
      separator = .line .orNil)
    (h : Compact localized merged) (word : String) (words : List String) :
    ∃ rest, (((word :: words).map Part.word).intersperse (.line .orSpace) ++ [separator]).foldr
        (mergeStep true) merged = .word word :: rest ∧ Compact localized (.word word :: rest) :=
  foldr_words (fun _ => h.push_filled rfl hs) (fun _ _ _ => .cons rfl rfl) word words

/-- The parts before the first word of a text, in front of that word.  A soft line stands there only
**before a single character**, and never in localized text. -/
theorem push_leading (child : Child) (next : Option Child) (leading : Option Whitespace)
    {word : String} {rest : List Part} (h : Compact localized (.word word :: rest)) :
    Compact localized ((ofLeading localized word child next leading).foldr (mergeStep true)
      (.word word :: rest)) := by
  have hkind : separatorForBreak localized word child next = .line .hard ∨
      localized = false ∧ separatorForBreak localized word child next = .line .orNil ∧
        StartsLetter (.word word :: rest) := by
    rw [separatorForBreak]
    split_ifs with hlocalized hletter
    · exact .inl rfl
    · exact .inl rfl
    · exact .inr ⟨by simpa using hlocalized, rfl, word, rfl, by simpa using hletter⟩
    · exact .inl rfl
  have hline : Compact localized (mergeStep true .empty (mergeStep true
      (separatorForBreak localized word child next) (.word word :: rest))) := by
    have hstep : mergeStep true .empty (mergeStep true (separatorForBreak localized word child next)
        (.word word :: rest)) =
          .empty :: separatorForBreak localized word child next :: .word word :: rest := by
      obtain heq | ⟨-, heq, -⟩ := hkind <;> rw [heq] <;> rfl
    rw [hstep]
    exact .opening (.inr hkind) rfl h
  rcases leading with _ | _ | _ | _
  · exact h
  · exact h.push_blank (.inl rfl)
  · exact hline
  · exact hline

/-- The parts of **one child**. -/
theorem push_child (localized : Bool) (child : Child) (next : Option Child)
    (h : Compact localized merged) :
    Compact localized ((ofChild localized child next).foldr (mergeStep true) merged) := by
  cases child with
  | printed kind doc => exact h.push_filled rfl (.inr (separatorAfter_cases ..))
  | text raw =>
    rw [ofChild]
    cases hof : TextContent.ofText raw with
    | blank run =>
      cases run with
      | space => exact h.push_blank (.inl rfl)
      | lineBreak => exact h
      | blankLine => exact h.push_blank (.inr rfl)
    | words leading inner trailing =>
      obtain ⟨word, words, rfl⟩ := List.exists_cons_of_ne_nil (TextContent.words_ne_nil hof)
      obtain ⟨rest, hrest, hcompact⟩ := h.push_words
        (ofTrailing_cases localized ((word :: words).getLastD "") (.text raw) next trailing)
        word words
      rw [ofText, List.append_assoc, List.foldr_append, hrest]
      exact hcompact.push_leading _ next leading

theorem of_merge (localized : Bool) (children : List Child) :
    Compact localized (merge true (ofChildren localized children)) := by
  induction children with
  | nil => exact .nil
  | cons child children ih =>
    rw [ofChildren, merge, List.foldr_append]
    exact ih.push_child localized child _

end Compact

/-! ## Positions -/

/-- The content at `2 * i` stands **between two soft lines**, of which the second is followed by a
word of one character. -/
structure BetweenSoftLines (parts : List Part) (i : Nat) : Prop where
  notFirst : 0 < i
  before : parts[2 * i - 1]? = some (.line .orNil)
  after : parts[2 * i + 1]? = some (.line .orNil)
  letter : ∃ word, parts[2 * i + 2]? = some (.word word) ∧ word.length = 1

theorem BetweenSoftLines.cons {parts : List Part} {i : Nat} (h : BetweenSoftLines parts i)
    (content separator : Part) : BetweenSoftLines (content :: separator :: parts) (i + 1) := by
  obtain ⟨word, hword, hlength⟩ := h.letter
  have hbefore : 2 * (i + 1) - 1 = 2 * i - 1 + 1 + 1 := by have := h.notFirst; omega
  have hafter : 2 * (i + 1) + 1 = 2 * i + 1 + 1 + 1 := by omega
  have hnext : 2 * (i + 1) + 2 = 2 * i + 2 + 1 + 1 := by omega
  refine ⟨Nat.succ_pos i, ?_, ?_, word, ?_, hlength⟩
  · rw [hbefore, List.getElem?_cons_succ, List.getElem?_cons_succ, h.before]
  · rw [hafter, List.getElem?_cons_succ, List.getElem?_cons_succ, h.after]
  · rw [hnext, List.getElem?_cons_succ, List.getElem?_cons_succ, hword]

theorem startsEmpty_of_getElem? {parts : List Part} (h : parts[0]? = some .empty) :
    startsEmpty parts = true := by
  rcases parts with _ | ⟨first, parts⟩
  · cases h
  · obtain rfl : first = .empty := by simpa using h
    rfl

/-- The **empty contents** of compact parts. -/
theorem Compact.getElem?_empty {localized : Bool} {merged : List Part}
    (h : Compact localized merged) {i : Nat} (hi : merged[2 * i]? = some .empty) :
    i = 0 ∨ localized = false ∧ BetweenSoftLines merged i := by
  -- behind a content and a separator, the rest does not start with an empty content
  have hshift {rest : List Part} {j : Nat} (hstarts : startsEmpty rest = false)
      (hj : rest[2 * j]? = some .empty)
      (hrest : j = 0 ∨ localized = false ∧ BetweenSoftLines rest j) (content separator : Part) :
      localized = false ∧ BetweenSoftLines (content :: separator :: rest) (j + 1) := by
    obtain rfl | ⟨hplain, hbetween⟩ := hrest
    · rw [startsEmpty_of_getElem? hj] at hstarts
      cases hstarts
    · exact ⟨hplain, hbetween.cons content separator⟩
  induction h generalizing i with
  | nil => cases hi
  | cons filled next tail ih | opening kind next tail ih =>
    rcases i with _ | i
    · exact .inl rfl
    · exact .inr (hshift next hi (ih hi) _ _)
  | softLines filled plain letter tail ih =>
    rcases i with _ | _ | i
    · exact .inl rfl
    · obtain ⟨word, hword, hlength⟩ := letter
      refine .inr ⟨plain, Nat.one_pos, rfl, rfl, word, ?_, hlength⟩
      rwa [List.head?_eq_getElem?] at hword
    · obtain ⟨hplain, hbetween⟩ :=
        hshift letter.startsEmpty_eq_false hi (ih hi) .empty (.line .orNil)
      exact .inr ⟨hplain, hbetween.cons _ _⟩

/-! ## Trimming -/

/-- What trimming **drops in front** is one line without content at most. -/
theorem Compact.exists_trim_eq {localized : Bool} {merged : List Part}
    (h : Compact localized merged) :
    ∃ kept, Compact localized kept ∧ (startsEmpty kept = true → startsSpace kept = true) ∧
      trim merged = trimEnd kept := by
  have hkept {parts : List Part} (hparts : Compact localized parts)
      (hstarts : startsEmpty parts = false) :
      trimStart (trimEnd parts) = trimEnd parts := by
    cases hparts with
    | nil => rfl
    | cons filled | softLines filled => exact Merged.trimStart_trimEnd_of_isFilled filled _
    | opening => cases hstarts
  have hfilled {parts : List Part} (hparts : Compact localized parts)
      (hstarts : startsEmpty parts = false) (heq : trim merged = trimStart (trimEnd parts)) :
      ∃ kept, Compact localized kept ∧ (startsEmpty kept = true → startsSpace kept = true) ∧
        trim merged = trimEnd kept :=
    ⟨parts, hparts, by simp [hstarts], heq.trans (hkept hparts hstarts)⟩
  cases hstarts : startsEmpty merged with
  | false => exact hfilled h hstarts rfl
  | true =>
    obtain ⟨separator, rest, rfl, kind, next, tail⟩ := h.of_startsEmpty hstarts
    by_cases hspace : separator = .space
    · subst hspace
      refine ⟨_, h, fun _ => rfl, ?_⟩
      rw [trim, trimEnd_cons_space, trimStart, if_neg (by simp [isLineOrEmpty])]
    · have hline : separator.isLineOrEmpty = true := by
        obtain rfl | rfl | ⟨-, rfl, -⟩ := kind
        · exact absurd rfl hspace
        · rfl
        · rfl
      refine hfilled tail next ?_
      by_cases hrest : trimEnd rest = []
      · have hnothing : trimEnd (separator :: rest) = [] := by
          rw [trimEnd_cons_of_eq_nil _ hrest, if_pos hline]
        rw [trim, trimEnd_cons_of_eq_nil .empty hnothing, hrest]
        rfl
      · have hseparator := trimEnd_cons_of_ne_nil separator hrest
        rw [trim, trimEnd_cons_of_ne_nil .empty (by simp [hseparator]), hseparator, trimStart,
          if_pos (by rw [hline]; rfl)]

/-- What is trimmed at the end **keeps what is around** an empty content. -/
theorem BetweenSoftLines.trimEnd {parts : List Part} {i : Nat} (h : BetweenSoftLines parts i)
    (hi : (trimEnd parts)[2 * i]? = some .empty) : BetweenSoftLines (Part.trimEnd parts) i := by
  obtain ⟨back, hback⟩ := trimEnd_isPrefix parts
  have hsame (j : Nat) (hj : j < (Part.trimEnd parts).length) :
      (Part.trimEnd parts)[j]? = parts[j]? := by
    rw [← List.getElem?_append_left hj, hback]
  have hlength : 2 * i < (Part.trimEnd parts).length := (List.getElem?_eq_some_iff.mp hi).1
  -- the last part that is left is no line and not empty, so it stands further on
  have hlast (j : Nat) (part : Part) (hj : (Part.trimEnd parts)[j]? = some part)
      (hpart : part.isLineOrEmpty = true) : j + 1 < (Part.trimEnd parts).length := by
    obtain hnil | ⟨front, last, heq, hkeeps⟩ := trimEnd_eq_nil_or parts
    · simp [hnil] at hj
    · rw [heq] at hj ⊢
      have hle : j < (front ++ [last]).length := (List.getElem?_eq_some_iff.mp hj).1
      by_contra hend
      obtain rfl : j = front.length := by simp at hle hend; omega
      obtain rfl : last = part := by simpa using hj
      rw [hpart] at hkeeps
      cases hkeeps
  have hafter := hlast (2 * i) .empty hi rfl
  have hsoft : (Part.trimEnd parts)[2 * i + 1]? = some (.line .orNil) :=
    (hsame _ hafter).trans h.after
  have hnext := hlast (2 * i + 1) (.line .orNil) hsoft rfl
  obtain ⟨word, hword, hone⟩ := h.letter
  exact ⟨h.notFirst, (hsame _ (by omega)).trans h.before, hsoft, word,
    (hsame _ hnext).trans hword, hone⟩

/-- **With text among the children, no separators are left to join** but two soft lines.  A content
that is empty stands in front of a space at the very start, or between two soft lines before a word
of one character, and there only outside localized text. -/
theorem getElem?_empty_arrange (localized : Bool) {children : List Child}
    (text : children.any Child.isMeaningfulText = true) :
    let parts := arrange localized (children.any Child.isMeaningfulText) children
    ∀ i, parts[2 * i]? = some .empty →
      (i = 0 ∧ parts[1]? = some .space) ∨ (localized = false ∧ BetweenSoftLines parts i) := by
  obtain ⟨kept, hcompact, hstarts, htrim⟩ := (Compact.of_merge localized children).exists_trim_eq
  rw [text]
  intro parts i hi
  have hparts : parts = trimEnd kept := htrim
  rw [hparts] at hi ⊢
  have hkept : kept[2 * i]? = some .empty := by
    obtain ⟨back, hback⟩ := trimEnd_isPrefix kept
    rw [← hback, List.getElem?_append_left (List.getElem?_eq_some_iff.mp hi).1, hi]
  obtain rfl | ⟨hplain, hbetween⟩ := hcompact.getElem?_empty hkept
  · have hspace := hstarts (startsEmpty_of_getElem? hkept)
    obtain ⟨rest, rfl⟩ : ∃ rest, kept = .empty :: .space :: rest := by
      unfold startsSpace at hspace
      split at hspace
      · exact ⟨_, rfl⟩
      · cases hspace
    rw [trimEnd_cons_space]
    exact .inl ⟨rfl, rfl⟩
  · exact .inr ⟨hplain, hbetween.trimEnd hi⟩

/-- Braces, and a text on the next line that starts with a single character: `{x}⏎ a`. -/
def bracesThenLetter : List Child := [.printed (.container false) (.text "{x}"), .text "\n a"]

/-- The two soft lines of these children. -/
theorem getElem?_empty_arrange_bracesThenLetter :
    let parts := arrange false (bracesThenLetter.any Child.isMeaningfulText) bracesThenLetter
    bracesThenLetter.any Child.isMeaningfulText = true ∧ parts[2 * 1]? = some .empty ∧
      ((1 = 0 ∧ parts[1]? = some .space) ∨ (false = false ∧ BetweenSoftLines parts 1)) :=
  have htext : bracesThenLetter.any Child.isMeaningfulText = true := by decide
  ⟨htext, rfl, getElem?_empty_arrange false htext 1 rfl⟩

/-- Two soft lines **are not merged**: an empty content is left between them, neither at the start
nor before a space. -/
theorem not_merged_softLines :
    let parts := arrange false (bracesThenLetter.any Child.isMeaningfulText) bracesThenLetter
    bracesThenLetter.any Child.isMeaningfulText = true ∧
      parts = [.printed (.text "{x}"), .line .orNil, .empty, .line .orNil, .word "a"] ∧
      ¬ ∀ i, parts[2 * i]? = some .empty → i = 0 ∧ parts[2 * i + 1]? = some .space :=
  ⟨by decide, rfl, fun h => absurd (h 1 rfl).1 Nat.one_ne_zero⟩

end Reflow.Part
