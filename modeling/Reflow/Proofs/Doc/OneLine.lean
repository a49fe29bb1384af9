import Reflow.Proofs.Doc.Fitting
import Reflow.Proofs.Doc.Stable

/-!
# Proofs/Doc/OneLine — groups on one line

A group is printed on one line only if it is not bound to break and its texts are within the width,
as long as there is a line that shows whether it is broken (`Doc.HasLine`).  So what is printed then
is the same at every width (`Doc.exists_typeset_group`).
-/

namespace Reflow.Doc

/-- A document with **a line of its own group**: it takes several lines if the group is broken. -/
def HasLine (doc : Doc) : Prop :=
  ∀ flush indentWidth state beforeBreak pending, state ≠ .flat →
    (resolve flush indentWidth state beforeBreak doc pending).layout.BreaksIn .broken

theorem hasLine_line (kind : LineKind) : (line kind).HasLine := by
  intro flush indentWidth state beforeBreak pending hstate
  cases state with
  | flat => exact absurd rfl hstate
  | broken => exact IsStable.breaksIn_line_broken kind beforeBreak pending .broken
  | undecided => exact IsStable.breaksIn_line_undecided kind beforeBreak pending

theorem HasLine.concat {doc : Doc} (h : doc.HasLine) {docs : List Doc} (hmem : doc ∈ docs) :
    (concat docs).HasLine := fun _ _ _ _ pending hstate =>
  breaksIn_resolveAll (fun _ _ => h _ _ _ _ _ hstate) hmem pending

theorem HasLine.indent {doc : Doc} (h : doc.HasLine) : (indent doc).HasLine :=
  fun _ _ _ _ _ hstate => (h _ _ _ _ _ hstate).nest _

/-- A document without lines is typeset as **its texts**. -/
theorem typeset_eq_join_of_isLineless (o : LayoutOptions) (hindent : 0 < o.indentWidth) {doc : Doc}
    (h : doc.isLineless = true) : doc.typeset o = .ok (String.join doc.flatTexts) := by
  rw [typeset_of_isLineless o hindent h, ← flatMap_flatTexts_of_isLineless doc h,
    ← String.toList_join, String.ofList_toList]

/-- A group with a line that is **on one line** is its texts: it was not bound to
break, and it fits. -/
theorem exists_typeset_group (o : LayoutOptions) (hindent : 0 < o.indentWidth) {doc : Doc}
    (hline : doc.HasLine) (halternatives : doc.hasAlternatives = true) {shouldBreak : Bool}
    (hheld : (group shouldBreak doc).willBreak = false → doc.suffixDepth = 0) :
    ∃ output, (group shouldBreak doc).typeset o = .ok output ∧
      ('\n' ∉ output.toList → output = String.join doc.flatTexts) := by
  cases hbreak : shouldBreak || doc.willBreak with
  | true =>
    refine ⟨_, by rw [typeset, if_neg hindent.ne'],
      fun hone => absurd (Piece.onOneLine_of_write hone) ?_⟩
    have hresolved (flush : Flush) :
        (resolve flush o.indentWidth .broken false (group shouldBreak doc) []).layout.BreaksIn
          .broken := by
      rw [resolve, hbreak]
      exact hline _ _ _ _ _ (by decide)
    have hlayout : ((group shouldBreak doc).layout o.indentWidth).BreaksIn .broken := by
      rw [layout]
      split_ifs
      · exact hresolved _
      · exact (hresolved _).seq_left _
    exact hlayout _ _ _ _
  | false =>
    obtain ⟨rfl, hnone⟩ := Bool.or_eq_false_iff.mp hbreak
    have hstays : doc.MayStayFlat := ⟨hnone, hheld hbreak, halternatives⟩
    by_cases hroom : Text.widths doc.flatTexts ≤ o.printWidth
    · exact ⟨_, hstays.typeset_grouped_of_room o hindent hroom, fun _ => rfl⟩
    · refine ⟨_, hstays.typeset_grouped_broken o hindent (Nat.lt_of_not_le hroom), fun hone => ?_⟩
      exact absurd (Piece.onOneLine_of_write hone) (hline _ _ _ _ _ (by decide) _ _ _ _)

end Reflow.Doc
