import Reflow.Proofs.Doc.Outcome

/-!
# Proofs/Doc/Lineless — documents without lines

A document without lines and choices prints one text at every width, its own.
-/

namespace Reflow.Doc

/-- A document that **can only print one text**. -/
def PrintsOnly (doc : Doc) (text : List Char) : Prop :=
  ∀ mode cs, doc.Prints mode cs → cs = text

mutual

/-- Whether a document has **no line, no choice and nothing held back**. -/
def isLineless : Doc → Bool
  | text _ | suffixBoundary => true
  | concat docs => allLineless docs
  | indent doc | group _ doc => doc.isLineless
  | line _ | fill _ | ifBreak .. | conditional _ | lineSuffix _ => false

def allLineless : List Doc → Bool
  | [] => true
  | doc :: docs => doc.isLineless && allLineless docs

end

mutual

/-- The **own text** of a document: all its characters, if it has no lines. -/
def ownText : Doc → List Char
  | text s => s.toList
  | concat docs => ownTexts docs
  | indent doc | group _ doc => doc.ownText
  | line _ | fill _ | ifBreak .. | conditional _ | lineSuffix _ | suffixBoundary => []

def ownTexts : List Doc → List Char
  | [] => []
  | doc :: docs => doc.ownText ++ ownTexts docs

end

mutual

/-- Without lines a document prints **its own text**. -/
theorem printsOnly_ownText (doc : Doc) (h : doc.isLineless = true) :
    doc.PrintsOnly doc.ownText := by
  intro mode cs hp
  match doc with
  | text s => exact prints_text.mp hp
  | suffixBoundary => exact prints_suffixBoundary.mp hp
  | concat docs => exact printsOnly_ownTexts docs h mode cs hp
  | indent doc => exact printsOnly_ownText doc h mode cs (prints_indent.mp hp)
  | group _ doc =>
    obtain ⟨inner, hp⟩ := prints_group.mp hp
    exact printsOnly_ownText doc h inner cs hp

theorem printsOnly_ownTexts (docs : List Doc) (h : allLineless docs = true) :
    (concat docs).PrintsOnly (ownTexts docs) := by
  intro mode cs hp
  match docs with
  | [] => exact prints_concat_nil.mp hp
  | doc :: docs =>
    rw [allLineless, Bool.and_eq_true] at h
    obtain ⟨xs, ys, rfl, hx, hy⟩ := prints_concat_cons.mp hp
    rw [ownTexts, printsOnly_ownText doc h.1 mode xs hx, printsOnly_ownTexts docs h.2 mode ys hy]

end

mutual

theorem suffixDepth_of_isLineless (doc : Doc) (h : doc.isLineless = true) :
    doc.suffixDepth = 0 := by
  match doc with
  | text _ | suffixBoundary => rfl
  | concat docs => exact maxSuffixDepth_of_allLineless docs h
  | indent doc | group _ doc => exact suffixDepth_of_isLineless doc h

theorem maxSuffixDepth_of_allLineless (docs : List Doc) (h : allLineless docs = true) :
    maxSuffixDepth docs = 0 := by
  match docs with
  | [] => rfl
  | doc :: docs =>
    rw [allLineless, Bool.and_eq_true] at h
    rw [maxSuffixDepth, suffixDepth_of_isLineless doc h.1, maxSuffixDepth_of_allLineless docs h.2]
    rfl

end

/-- Wherever it is set, a document without lines **is written as its own text**. -/
theorem exists_resolve_of_isLineless {doc : Doc} (h : doc.isLineless = true) (flush : Flush)
    (indentWidth : Nat) (state : GroupState) (beforeBreak : Bool) :
    ∃ layout, resolve flush indentWidth state beforeBreak doc [] = ⟨layout, []⟩ ∧
      ∀ (o : LayoutOptions) (mode : Mode) (indent : Nat) (rest : Layout.Rest) (column : Nat),
        (layout.set o.printWidth mode indent rest column).flatMap (Piece.chars o) =
        doc.ownText := by
  have hyields (o : LayoutOptions) := resolve_yields o flush indentWidth state beforeBreak doc
    (suffixDepth_of_isLineless doc h)
  cases hresolved : resolve flush indentWidth state beforeBreak doc [] with
  | mk layout pending =>
    rw [hresolved] at hyields
    obtain rfl : pending = [] := (hyields {}).pending
    exact ⟨layout, rfl, fun o mode indent rest column =>
      printsOnly_ownText doc h _ _ ((hyields o).written (Layout.set_mayPrint ..))⟩

/-- At every width a document without lines **is its own text**. -/
theorem typeset_of_isLineless (o : LayoutOptions) (hindent : 0 < o.indentWidth) {doc : Doc}
    (h : doc.isLineless = true) : doc.typeset o = .ok (String.ofList doc.ownText) := by
  obtain ⟨layout, hresolve, hset⟩ :=
    exists_resolve_of_isLineless h (flushAt o.indentWidth doc.suffixDepth) o.indentWidth
      .broken false
  have hlayout : doc.layout o.indentWidth = layout := by
    rw [Doc.layout, hresolve]
    rfl
  rw [typeset, if_neg hindent.ne', pieces, hlayout, Layout.pieces, Piece.write, hset]

end Reflow.Doc
