import Reflow.Proofs.Doc.Depth
import Reflow.Proofs.Doc.Fitting

/-!
# Proofs/Doc/Choosing — one variant of many

A choice between variants prints the first one that need not break and fits on one line, or else the
last one, as that prints alone (`Doc.typeset_conditional`).  All variants are resolved before the
choice is made, the last one first, and what it leaves pending is printed whatever is chosen
(`Doc.typeset_conditional_leaks`).  So the last variant has to print all it holds back, or be the
only one that can be chosen, behind attempts that keep the line.
-/

namespace Reflow

namespace Doc

/-- Whether a variant **can be chosen flat**: it need not break, and its texts on one line are
within the width. -/
def fitsFlat (width : Nat) (variant : Doc) : Bool :=
  !variant.willBreak && decide (Text.widths variant.flatTexts ≤ width)

end Doc

/-- From the first column, texts stay within the width if all of them together do, **also if there
are none**. -/
theorem Piece.staysWithin_texts_zero (width : Nat) (ts : List String) :
    staysWithin width 0 (ts.map text) = decide (Text.widths ts ≤ width) := by
  by_cases hnone : ts = []
  · subst hnone
    exact (decide_eq_true (Nat.zero_le width)).symm
  · rw [staysWithin_texts width 0 hnone, Nat.zero_add]
    rfl

/-- Texts are written **one after the other**. -/
theorem Piece.write_texts (o : LayoutOptions) (ts : List String) :
    write o (ts.map text) = String.join ts := by
  rw [write, List.flatMap_map, ← String.ofList_toList (s := String.join ts), String.toList_join]
  rfl

namespace Doc

/-! ## Attempts that keep the line -/

mutual

/-- Whether a boundary stands in **what a document prints on one line**. -/
def hasBoundary : Doc → Bool
  | text _ | line _ | lineSuffix _ => false
  | suffixBoundary => true
  | concat docs | fill docs => anyHasBoundary docs
  | indent doc | group _ doc => doc.hasBoundary
  | ifBreak _ flat => flat.hasBoundary
  | conditional variants => firstHasBoundary variants

def anyHasBoundary : List Doc → Bool
  | [] => false
  | doc :: docs => doc.hasBoundary || anyHasBoundary docs

def firstHasBoundary : List Doc → Bool
  | [] => false
  | doc :: _ => doc.hasBoundary

end

mutual

/-- On one line a document without a boundary **leaves pending what is pending**, and is resolved as
if nothing were. -/
theorem resolve_flat_of_pending (flush : Flush) (indentWidth : Nat) (beforeBreak : Bool) (doc : Doc)
    (hbreak : doc.willBreak = false) (hboundary : doc.hasBoundary = false) (pending : List Doc) :
    resolve flush indentWidth .flat beforeBreak doc pending =
      ⟨(resolve flush indentWidth .flat beforeBreak doc []).layout, pending⟩ := by
  match doc with
  | text s => rfl
  | line .orSpace => rfl
  | line .orNil => rfl
  | concat docs => exact resolveAll_flat_of_pending flush indentWidth docs hbreak hboundary pending
  | fill parts => exact resolveAll_flat_of_pending flush indentWidth parts hbreak hboundary pending
  | indent contents =>
    rw [resolve, resolve_flat_of_pending flush indentWidth false contents hbreak hboundary pending]
    rfl
  | group _ contents =>
    exact resolve_flat_of_pending flush indentWidth false contents
      (Bool.or_eq_false_iff.mp hbreak).2
      hboundary pending
  | ifBreak _ flat =>
    exact resolve_flat_of_pending flush indentWidth false flat (Bool.or_eq_false_iff.mp hbreak).2
      hboundary pending
  | conditional [] => rfl
  | conditional (variant :: _) =>
    exact resolve_flat_of_pending flush indentWidth false variant hbreak hboundary pending

theorem resolveAll_flat_of_pending (flush : Flush) (indentWidth : Nat) (docs : List Doc)
    (hbreak : anyWillBreak docs = false) (hboundary : anyHasBoundary docs = false)
    (pending : List Doc) :
    resolveAll flush indentWidth .flat docs pending =
      ⟨(resolveAll flush indentWidth .flat docs []).layout, pending⟩ := by
  match docs with
  | [] => rfl
  | doc :: docs =>
    obtain ⟨hdoc, hdocs⟩ := Bool.or_eq_false_iff.mp hbreak
    obtain ⟨hdoc', hdocs'⟩ := Bool.or_eq_false_iff.mp hboundary
    have hnone := isTexts_resolve_flat flush indentWidth (nextIsBreak .flat docs) doc hdoc
    rw [resolveAll, resolveAll, hnone.pending,
      resolve_flat_of_pending flush indentWidth _ doc hdoc hdoc' pending,
      resolveAll_flat_of_pending flush indentWidth docs hdocs hdocs' pending]

end

/-- A variant that is wider than the line, and whose attempt **keeps the line**. -/
def Overflows (width : Nat) (variant : Doc) : Prop :=
  width < Text.widths variant.flatTexts ∧ variant.hasBoundary = false

/-- A variant that is bound to break or too wide is **not chosen**. -/
theorem fitsFlat_eq_false {width : Nat} {variant : Doc}
    (h : variant.willBreak = true ∨ variant.Overflows width) : fitsFlat width variant = false := by
  rw [fitsFlat]
  obtain hbreak | hwide := h
  · rw [hbreak]
    rfl
  · rw [decide_eq_false (Nat.not_le.mpr hwide.1), Bool.and_false]

/-! ## The variants of a choice -/

variable {front : List Doc} {last : Doc}

/-- Behind variants of which none can be chosen, **the last one is set**,
before whatever follows. -/
theorem set_resolveVariants_last (last : Doc) (flush : Flush) (indentWidth width : Nat)
    (h : ∀ variant ∈ front, variant.willBreak = true ∨ variant.Overflows width) :
    (resolveVariants flush indentWidth (front ++ [last]) []).pending =
        (resolve flush indentWidth .broken false last []).pending ∧
      ∀ rest,
        (resolveVariants flush indentWidth (front ++ [last]) []).layout.set width .broken 0 rest 0 =
          (resolve flush indentWidth .broken false last []).layout.set width .broken 0 rest 0 := by
  induction front with
  | nil => exact ⟨rfl, fun _ => rfl⟩
  | cons variant front ih =>
    obtain ⟨hvariant, hfront⟩ := List.forall_mem_cons.mp h
    obtain ⟨hpending, hset⟩ := ih hfront
    rw [List.cons_append, resolveVariants, if_neg (by simp)]
    cases hbreak : variant.willBreak with
    | true => exact ⟨hpending, hset⟩
    | false =>
      obtain ⟨hwide, hboundary⟩ := hvariant.resolve_left (by simp [hbreak])
      have hattempt := isTexts_resolve_flat flush indentWidth false variant hbreak
      rw [if_neg Bool.false_ne_true,
        resolve_flat_of_pending flush indentWidth false variant hbreak hboundary]
      refine ⟨hpending, fun rest => ?_⟩
      rw [Layout.set, hattempt.set, Piece.staysWithin_texts_zero,
        decide_eq_false (Nat.not_le.mpr hwide)]
      exact hset rest

/-- Behind a last variant that leaves nothing pending, **no attempt does**. -/
theorem pending_resolveVariants (flush : Flush) (indentWidth : Nat)
    (h : (resolve flush indentWidth .broken false last []).pending = []) :
    (resolveVariants flush indentWidth (front ++ [last]) []).pending = [] := by
  induction front with
  | nil => exact h
  | cons variant front ih =>
    rw [List.cons_append, resolveVariants, if_neg (by simp)]
    split_ifs with hbreak
    · exact ih
    · simp only [ih]
      exact (isTexts_resolve_flat flush indentWidth false variant
        (Bool.not_eq_true _ ▸ hbreak)).pending

/-- **The first variant that fits is set**, and the last one if none does. -/
theorem pieces_resolveVariants (flush : Flush) (indentWidth width : Nat)
    (h : (resolve flush indentWidth .broken false last []).pending = []) :
    (resolveVariants flush indentWidth (front ++ [last]) []).layout.pieces width =
      match front.find? (fitsFlat width) with
      | some variant => variant.flatTexts.map .text
      | none => (resolve flush indentWidth .broken false last []).layout.pieces width := by
  induction front with
  | nil => rfl
  | cons variant front ih =>
    rw [List.cons_append, resolveVariants, if_neg (by simp), List.find?_cons, fitsFlat]
    cases hbreak : variant.willBreak with
    | true => exact ih
    | false =>
      have hattempt := isTexts_resolve_flat flush indentWidth false variant hbreak
      simp only [pending_resolveVariants flush indentWidth h]
      rw [Layout.pieces, if_neg Bool.false_ne_true, Layout.set, hattempt.set,
        Piece.staysWithin_texts_zero]
      cases decide (Text.widths variant.flatTexts ≤ width) with
      | true => rfl
      | false => exact ih

/-- What is set alike before whatever follows, and leaves the same pending, **ends alike**. -/
theorem Flush.pieces_finish_congr (flush : Flush) (width : Nat) {r r' : Resolved}
    (h : r.pending = r'.pending ∧
      ∀ rest, r.layout.set width .broken 0 rest 0 = r'.layout.set width .broken 0 rest 0) :
    (Flush.finish flush r).pieces width = (Flush.finish flush r').pieces width := by
  obtain ⟨hpending, hset⟩ := h
  rw [Flush.finish, Flush.finish, hpending]
  split_ifs
  · exact hset []
  · simp only [Layout.pieces, Layout.set, hset]

/-- The last variant **holds back no deeper** than the choice. -/
theorem suffixDepth_last_le (front : List Doc) (last : Doc) :
    last.suffixDepth ≤ (conditional (front ++ [last])).suffixDepth :=
  maxSuffixDepth_le_iff.mp le_rfl last (List.mem_append_right front List.mem_cons_self)

/-- **A choice prints exactly one of its variants**: the first one but the last that need not
break and is within the width on one line, as its texts on that line, or else the last one, as
it prints alone.  The last one has to leave nothing pending, or the others have to be bound to
break or too wide. -/
theorem typeset_conditional (o : LayoutOptions) (hindent : 0 < o.indentWidth) {front : List Doc}
    {last : Doc}
    (h : last.leftPending o.indentWidth = [] ∨
      ∀ variant ∈ front, variant.willBreak = true ∨ variant.Overflows o.printWidth) :
    (conditional (front ++ [last])).typeset o =
      match front.find? (fitsFlat o.printWidth) with
      | some variant => .ok (String.join variant.flatTexts)
      | none => last.typeset o := by
  set flush := flushAt o.indentWidth (conditional (front ++ [last])).suffixDepth
  have hlast := suffixDepth_last_le front last
  have hvariants : (conditional (front ++ [last])).layout o.indentWidth =
      Flush.finish flush (resolveVariants flush o.indentWidth (front ++ [last]) []) := rfl
  have halone := layout_eq_finish o.indentWidth hlast
  rw [← resolve_eq_alone o.indentWidth hlast] at halone
  obtain hsettled | hnotChosen := h
  · have hnone : (resolve flush o.indentWidth .broken false last []).pending = [] := by
      rw [resolve_eq_alone o.indentWidth hlast]
      exact hsettled
    rw [Flush.finish, pending_resolveVariants flush o.indentWidth hnone] at hvariants
    rw [Flush.finish, hnone] at halone
    rw [typeset, typeset, if_neg hindent.ne', if_neg hindent.ne', pieces, pieces, hvariants, halone,
      if_pos (by rfl), if_pos (by rfl),
      pieces_resolveVariants flush o.indentWidth o.printWidth hnone]
    cases front.find? (fitsFlat o.printWidth) with
    | none => rfl
    | some variant => exact congrArg Except.ok (Piece.write_texts o variant.flatTexts)
  · have hnone : front.find? (fitsFlat o.printWidth) = none :=
      List.find?_eq_none.mpr fun variant hvariant =>
        Bool.eq_false_iff.mp (fitsFlat_eq_false (hnotChosen variant hvariant))
    have hpieces := Flush.pieces_finish_congr flush o.printWidth
      (set_resolveVariants_last last flush o.indentWidth o.printWidth hnotChosen)
    rw [hnone, typeset, typeset, pieces, hvariants, hpieces, ← halone]
    rfl

/-- In four columns, with a comment held back at the end of the last variant. -/
theorem typeset_conditional_comment :
    let front := [concat [text "aaa", line .orSpace, text "bbb"]]
    let last := concat [text "aaa", line .hard, text "bbb", lineSuffix (text " // c")]
    0 < ({ printWidth := 4 } : LayoutOptions).indentWidth ∧
      (∀ variant ∈ front, variant.willBreak = true ∨ variant.Overflows 4) ∧
      (conditional (front ++ [last])).typeset { printWidth := 4 } = .ok "aaa\nbbb // c" := by
  intro front last
  have hindent : 0 < ({ printWidth := 4 } : LayoutOptions).indentWidth := by decide
  have hwide : 4 < Text.widths ["aaa", " ", "bbb"] := by decide
  have hfront : ∀ variant ∈ front, variant.willBreak = true ∨ variant.Overflows 4 :=
    List.forall_mem_singleton.mpr (.inr ⟨hwide, rfl⟩)
  have hlast : last.typeset { printWidth := 4 } = .ok "aaa\nbbb // c" := by decide
  exact ⟨hindent, hfront,
    (typeset_conditional { printWidth := 4 } hindent (.inr hfront)).trans hlast⟩

/-- What the last variant leaves pending is printed behind **the variant that is chosen**. -/
theorem typeset_conditional_leaks :
    let front := [text "b"]
    let last := concat [text "a", lineSuffix (text " // x")]
    (conditional (front ++ [last])).typeset {} = .ok "b // x" ∧
      (match front.find? (fitsFlat ({} : LayoutOptions).printWidth) with
        | some variant => Except.ok (String.join variant.flatTexts)
        | none => last.typeset {}) = .ok "b" := by
  decide

end Doc

end Reflow
