import Reflow.Proofs.Doc.Fitting
import Reflow.Proofs.Markup.Grammar
import Reflow.Proofs.Text.Quote

/-!
# Proofs/Markup/OneLine — regular documents on one line

No document that is printed for a tree has a choice of one variant alone, and its texts on one line
have a line break only if something that is written in the tree has one
(`Doc.Regular.hasAlternatives`, `Doc.Regular.forall_flatTexts`).
-/

namespace Reflow

/-! ## Strings in other quotes -/

namespace AttributeString

/-- In other quotes a string **gets no line break**. -/
theorem newline_not_mem_normalize (preferred : Quote) {raw : String} (h : '\n' ∉ raw.toList) :
    '\n' ∉ (normalize preferred raw).toList := by
  have hquote (q : Quote) : '\n' ≠ q.char := by cases q <;> decide
  have hentity (q : Quote) : '\n' ∉ q.entity.toList := by cases q <;> decide
  intro hmem
  rw [normalize, String.toList_ofList, written, encode] at hmem
  simp only [List.cons_append, List.mem_cons, List.mem_append, List.mem_flatMap, List.not_mem_nil,
    or_false, hquote, false_or] at hmem
  obtain ⟨c, hvalue, hc⟩ := hmem
  split_ifs at hc
  · exact hentity _ hc
  · obtain rfl := List.mem_singleton.mp hc
    obtain hbody | ⟨q, hq⟩ := mem_decode hvalue
    · exact h (mem_body hbody)
    · exact hquote q hq

end AttributeString

/-! ## Documents -/

namespace Doc

variable {V : Vocabulary} {doc : Doc} {docs : List Doc}

theorem allFlatTexts_eq_flatMap (docs : List Doc) : allFlatTexts docs = docs.flatMap flatTexts := by
  induction docs with
  | nil => rfl
  | cons doc docs ih => rw [allFlatTexts, ih, List.flatMap_cons]

theorem flatTexts_append (a b : Doc) : (a ++ b).flatTexts = a.flatTexts ++ b.flatTexts := by
  change (append a b).flatTexts = _
  cases a <;> simp [append, flatTexts, allFlatTexts_eq_flatMap]

/-- Appending **makes no choice**. -/
theorem hasAlternatives_append (a b : Doc) :
    (a ++ b).hasAlternatives = (a.hasAlternatives && b.hasAlternatives) := by
  change (append a b).hasAlternatives = _
  cases a <;> simp [append, hasAlternatives, allHaveAlternatives_eq_all]

theorem hasAlternatives_lists (h : ∀ doc ∈ docs, doc.hasAlternatives = true) :
    allHaveAlternatives docs = true := by
  rw [allHaveAlternatives_eq_all]
  exact List.all_eq_true.mpr h

/-- A regular document has **no choice of one variant alone**, if what comes from
the host has none. -/
theorem Regular.hasAlternatives (h : doc.Regular V)
    (hown : ∀ doc, V.own doc → doc.hasAlternatives = true) : doc.hasAlternatives = true := by
  induction h with
  | own h => exact hown _ h
  | written | string | mark | line | suffixBoundary => rfl
  | concat _ ih => exact hasAlternatives_lists ih
  | append _ _ iha ihb => rw [hasAlternatives_append, iha, ihb, Bool.and_true]
  | indent _ ih => exact ih
  | group _ _ ih => exact ih
  | ifBreak _ _ _ ihb ihf => exact Bool.and_eq_true_iff.mpr ⟨ihb, ihf⟩
  | lineSuffix _ _ ih => exact ih
  | fill _ _ _ _ ih => exact hasAlternatives_lists ih
  | conditional several _ _ ih =>
    exact Bool.and_eq_true_iff.mpr ⟨bne_iff_ne.mpr several, hasAlternatives_lists ih⟩

/-- On one line a regular document has **no line break**, if nothing that is written and nothing
that comes from the host has one. -/
theorem Regular.forall_flatTexts (h : doc.Regular V) (hwritten : ∀ s, V.written s → '\n' ∉ s.toList)
    (hown : ∀ doc, V.own doc → ∀ t ∈ doc.flatTexts, '\n' ∉ t.toList) :
    ∀ t ∈ doc.flatTexts, '\n' ∉ t.toList := by
  have hall {docs : List Doc} (h : ∀ doc ∈ docs, ∀ t ∈ doc.flatTexts, '\n' ∉ t.toList) :
      ∀ t ∈ allFlatTexts docs, '\n' ∉ t.toList := by
    rw [allFlatTexts_eq_flatMap]
    exact List.forall_mem_flatMap.mpr h
  induction h with
  | own h => exact hown _ h
  | written h => exact List.forall_mem_singleton.mpr (hwritten _ h)
  | string quote h =>
    exact List.forall_mem_singleton.mpr
      (AttributeString.newline_not_mem_normalize quote (hwritten _ h))
  | mark h => exact List.forall_mem_singleton.mpr h
  | line kind => cases kind <;> simp [flatTexts]
  | suffixBoundary | lineSuffix => simp [flatTexts]
  | concat _ ih => exact hall ih
  | append _ _ iha ihb =>
    rw [flatTexts_append]
    exact List.forall_mem_append.mpr ⟨iha, ihb⟩
  | indent _ ih => exact ih
  | group _ _ ih => exact ih
  | ifBreak _ _ _ _ ihf => exact ihf
  | fill _ _ _ _ ih => exact hall ih
  | @conditional variants _ _ _ ih =>
    cases variants with
    | nil => simp [flatTexts, firstFlatTexts]
    | cons first others => exact ih first List.mem_cons_self

end Doc

end Reflow
