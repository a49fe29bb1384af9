import Reflow.Proofs.Doc.Lineless

/-!
# Proofs/Doc/Flat — documents on one line

In a flat group a document that is not bound to break is set as texts, which are the same at every
width and in every place (`Doc.flatTexts`).
-/

namespace Reflow.Doc

mutual

/-- The **texts of a document on one line**: lines are spaces or nothing, choices are flat, and of
variants the first one is printed. -/
def flatTexts : Doc → List String
  | text s => [s]
  | line .orSpace => [" "]
  | line .orNil | line .hard | lineSuffix _ | suffixBoundary => []
  | concat docs | fill docs => allFlatTexts docs
  | indent doc | group _ doc => doc.flatTexts
  | ifBreak _ flat => flat.flatTexts
  | conditional variants => firstFlatTexts variants

def allFlatTexts : List Doc → List String
  | [] => []
  | doc :: docs => doc.flatTexts ++ allFlatTexts docs

def firstFlatTexts : List Doc → List String
  | [] => []
  | doc :: _ => doc.flatTexts

end

end Reflow.Doc

namespace Reflow

/-- What is resolved **is these texts**: nothing is pending, and the layout is set as the texts
wherever it stands. -/
structure Resolved.IsTexts (r : Resolved) (ts : List String) : Prop where
  pending : r.pending = []
  set (width : Nat) (mode : Mode) (indent : Nat) (rest : Layout.Rest) (column : Nat) :
    r.layout.set width mode indent rest column = ts.map .text

/-- Texts behind texts are set **as all of them**. -/
theorem Resolved.IsTexts.seq {r r' : Resolved} {ts ts' : List String} (h : r.IsTexts ts)
    (h' : r'.IsTexts ts') : IsTexts ⟨.seq r.layout r'.layout, r'.pending⟩ (ts ++ ts') := by
  refine ⟨h'.pending, fun width mode indent rest column => ?_⟩
  rw [Layout.set, h.set, h'.set, List.map_append]

namespace Doc

mutual

/-- **Resolved in a flat group**, a document that is not bound to break is its texts on one line. -/
theorem isTexts_resolve_flat (flush : Flush) (indentWidth : Nat) (beforeBreak : Bool) (doc : Doc)
    (h : doc.willBreak = false) :
    (resolve flush indentWidth .flat beforeBreak doc []).IsTexts doc.flatTexts := by
  match doc with
  | text s => exact ⟨rfl, fun _ _ _ _ _ => rfl⟩
  | line .orSpace => exact ⟨rfl, fun _ _ _ _ _ => rfl⟩
  | line .orNil => exact ⟨rfl, fun _ _ _ _ _ => rfl⟩
  | suffixBoundary => exact ⟨rfl, fun _ _ _ _ _ => rfl⟩
  | concat docs => exact isTexts_resolveAll_flat flush indentWidth docs h
  | fill parts => exact isTexts_resolveAll_flat flush indentWidth parts h
  | indent contents =>
    have inner := isTexts_resolve_flat flush indentWidth false contents h
    exact ⟨inner.pending, fun width mode indent => inner.set width mode (indent + indentWidth)⟩
  | group _ contents =>
    exact isTexts_resolve_flat flush indentWidth false contents (Bool.or_eq_false_iff.mp h).2
  | ifBreak _ flat =>
    exact isTexts_resolve_flat flush indentWidth false flat (Bool.or_eq_false_iff.mp h).2
  | conditional [] => exact ⟨rfl, fun _ _ _ _ _ => rfl⟩
  | conditional (variant :: _) => exact isTexts_resolve_flat flush indentWidth false variant h

theorem isTexts_resolveAll_flat (flush : Flush) (indentWidth : Nat) (docs : List Doc)
    (h : anyWillBreak docs = false) :
    (resolveAll flush indentWidth .flat docs []).IsTexts (allFlatTexts docs) := by
  match docs with
  | [] => exact ⟨rfl, fun _ _ _ _ _ => rfl⟩
  | doc :: docs =>
    obtain ⟨hdoc, hdocs⟩ := Bool.or_eq_false_iff.mp h
    have here := isTexts_resolve_flat flush indentWidth (nextIsBreak .flat docs) doc hdoc
    rw [resolveAll, here.pending]
    exact here.seq (isTexts_resolveAll_flat flush indentWidth docs hdocs)

end

mutual

/-- On one line a document without lines is **its own text**. -/
theorem flatMap_flatTexts_of_isLineless (doc : Doc) (h : doc.isLineless = true) :
    doc.flatTexts.flatMap String.toList = doc.ownText := by
  match doc with
  | text s => exact List.flatMap_singleton ..
  | suffixBoundary => rfl
  | concat docs => exact flatMap_allFlatTexts_of_allLineless docs h
  | indent doc | group _ doc => exact flatMap_flatTexts_of_isLineless doc h

theorem flatMap_allFlatTexts_of_allLineless (docs : List Doc) (h : allLineless docs = true) :
    (allFlatTexts docs).flatMap String.toList = ownTexts docs := by
  match docs with
  | [] => rfl
  | doc :: docs =>
    obtain ⟨hdoc, hdocs⟩ := (Bool.and_eq_true _ _).mp h
    rw [allFlatTexts, List.flatMap_append, flatMap_flatTexts_of_isLineless doc hdoc,
      flatMap_allFlatTexts_of_allLineless docs hdocs, ownTexts]

end

end Doc

end Reflow
