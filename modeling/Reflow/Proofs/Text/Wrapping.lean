import Reflow.Text.Width
import Mathlib.Algebra.BigOperators.Group.List.Basic
import Mathlib.Algebra.Ring.Nat
import Mathlib.Data.List.Chain
import Mathlib.Data.List.Infix

/-!
# Proofs/Text/Wrapping — words wrapped greedily

Words are **wrapped** in lines if a word goes on the line of the word before it just when that line,
with a space and the word, is within the width (`Text.Wrapped`).  Only a line of one word may be too
wide then (`Wrapped.within`), and no other way to break the words that has no lines too wide but
those of one word takes fewer lines (`Wrapped.length_le`).
-/

namespace Reflow.Text

/-- The columns of a line of words, with **a space between any two**. -/
def lineWidth (line : List String) : Nat := (line.map width).sum + (line.length - 1)

/-- The characters of a line of words. -/
def lineChars (line : List String) : List Char := [' '].intercalate (line.map String.toList)

theorem lineWidth_append_singleton {line : List String} (h : line ≠ []) (word : String) :
    lineWidth (line ++ [word]) = lineWidth line + 1 + width word := by
  have hlength := List.length_pos_iff.mpr h
  simp only [lineWidth, List.map_append, List.sum_append, List.length_append, List.map_cons,
    List.map_nil, List.sum_singleton, List.length_singleton]
  omega

/-- A part of a line is **no wider** than the line. -/
theorem lineWidth_le_of_isInfix {part line : List String} (h : part <:+: line) :
    lineWidth part ≤ lineWidth line := by
  obtain ⟨before, after, rfl⟩ := h
  simp only [lineWidth, List.map_append, List.sum_append, List.length_append]
  omega

/-- Words **wrapped greedily** in lines with an indentation: where a word stays on a line,
the line with it is within the width, and where it starts the next line, the line before
with it would not be. -/
structure Wrapped (printWidth indent : Nat) (words : List String) (lines : List (List String)) :
    Prop where
  flatten : lines.flatten = words
  filled : ∀ line ∈ lines, line ≠ []
  stays : ∀ line ∈ lines, ∀ front word, front ++ [word] <+: line → front ≠ [] →
    indent + lineWidth (front ++ [word]) ≤ printWidth
  leaves : lines.IsChain fun line next =>
    ∀ word ∈ next.head?, printWidth < indent + lineWidth (line ++ [word])

/-- Lines of which **none is too wide** but those of one word. -/
def Within (printWidth indent : Nat) (lines : List (List String)) : Prop :=
  ∀ line ∈ lines, indent + lineWidth line ≤ printWidth ∨ ∃ word, line = [word]

namespace Wrapped

variable {printWidth indent : Nat} {words line : List String} {lines others : List (List String)}

/-- Only a line of **one word** may be too wide. -/
theorem within (h : Wrapped printWidth indent words lines) : Within printWidth indent lines := by
  intro line hline
  obtain hempty | ⟨front, word, rfl⟩ := List.eq_nil_or_concat' line
  · exact absurd hempty (h.filled line hline)
  · rcases front with _ | ⟨first, front⟩
    · exact .inr ⟨word, rfl⟩
    · exact .inl (h.stays _ hline _ word List.prefix_rfl (List.cons_ne_nil first front))

theorem tail (h : Wrapped printWidth indent words (line :: lines)) :
    Wrapped printWidth indent lines.flatten lines :=
  ⟨rfl, (List.forall_mem_cons.mp h.filled).2, (List.forall_mem_cons.mp h.stays).2, h.leaves.tail⟩

/-- A line that is not too wide, or of one word, and holds a whole line of the wrapping **holds no
word of the next one**. -/
theorem eq_nil_of_append (h : Wrapped printWidth indent words (line :: lines))
    {before more rest : List String} (hmore : lines.flatten = more ++ rest)
    (hfits : indent + lineWidth (before ++ line ++ more) ≤ printWidth ∨
      ∃ word, before ++ line ++ more = [word]) : more = [] := by
  rcases more with _ | ⟨word, more⟩
  · rfl
  obtain ⟨hline, hfilled⟩ := List.forall_mem_cons.mp h.filled
  exfalso
  obtain hfits | ⟨only, honly⟩ := hfits
  · -- the word starts the next line, so there was no room for it on this one
    obtain ⟨next, lines, rfl⟩ : ∃ next later, lines = next :: later :=
      List.exists_cons_of_ne_nil (by rintro rfl; cases hmore)
    have hhead : word ∈ next.head? := by
      obtain ⟨first, next, rfl⟩ := List.exists_cons_of_ne_nil (hfilled next List.mem_cons_self)
      exact congrArg some (List.cons.inj hmore).1
    have hwide := (List.isChain_cons_cons.mp h.leaves).1 word hhead
    have hle : lineWidth (line ++ [word]) ≤ lineWidth (before ++ line ++ word :: more) :=
      lineWidth_le_of_isInfix ⟨before, more, by simp⟩
    omega
  · have hlength := congrArg List.length honly
    have hpos := List.length_pos_iff.mpr hline
    simp only [List.length_append, List.length_cons, List.length_nil] at hlength
    omega

/-- Words at the end of others take **no more lines** than these, in any way to break them that
leaves no line too wide but those of one word. -/
theorem length_le_of_isSuffix (h : Wrapped printWidth indent words lines)
    (hsuffix : words <:+ others.flatten)
    (hwithin : Within printWidth indent others) :
    lines.length ≤ others.length := by
  induction others generalizing lines words with
  | nil =>
    rcases lines with _ | ⟨line, lines⟩
    · exact le_rfl
    · have hnone : line ++ lines.flatten = [] := h.flatten.trans (List.suffix_nil.mp hsuffix)
      exact absurd (List.append_eq_nil_iff.mp hnone).1 (h.filled line List.mem_cons_self)
  | cons other others ih =>
    rcases lines with _ | ⟨line, lines⟩
    · exact Nat.zero_le _
    obtain ⟨hother, hothers⟩ := List.forall_mem_cons.mp hwithin
    rw [← h.flatten, List.flatten_cons, List.flatten_cons] at hsuffix
    -- what is left after the first line is left after the other one as well
    have hleft : lines.flatten <:+ others.flatten := by
      obtain hleft | ⟨more, hmore⟩ := List.suffix_or_suffix_of_suffix
        ((List.suffix_append line lines.flatten).trans hsuffix)
        (List.suffix_append other others.flatten)
      · exact hleft
      · obtain ⟨before, hbefore⟩ := hsuffix
        rw [← hmore, ← List.append_assoc, ← List.append_assoc] at hbefore
        rw [← List.append_cancel_right hbefore] at hother
        rw [← hmore, h.eq_nil_of_append hmore.symm hother, List.nil_append]
    exact Nat.succ_le_succ (ih h.tail hleft hothers)

/-- **Wrapping greedily takes the fewest lines** of all ways to break the words that leave no line
too wide but those of one word. -/
theorem length_le (h : Wrapped printWidth indent words lines) (hothers : others.flatten = words)
    (hwithin : Within printWidth indent others) :
    lines.length ≤ others.length :=
  h.length_le_of_isSuffix (hothers ▸ List.suffix_rfl) hwithin

end Wrapped

end Reflow.Text
