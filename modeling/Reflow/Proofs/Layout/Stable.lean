import Reflow.Proofs.Layout.Columns
import Reflow.Proofs.Layout.Outcome

/-!
# Proofs/Layout/Stable — one line stays one line in more width

More width answers some look ahead differently, and changes nothing else.  What fits keeps fitting
(`Layout.fits_mono`), so a group is set in more width as it was, or flat instead of broken.  A
layout is **stable** if that makes no difference to what is on one line (`Layout.IsStable`).
-/

namespace Reflow

/-! ## Pieces on one line -/

namespace Piece

/-- Whether a piece ends the line. -/
def endsLine : Piece → Bool
  | newline _ | blankLine => true
  | text _ | spaces _ => false

/-- Pieces **on one line**. -/
def OnOneLine (pieces : List Piece) : Prop := ∀ piece ∈ pieces, piece.endsLine = false

@[simp] theorem onOneLine_append {xs ys : List Piece} :
    OnOneLine (xs ++ ys) ↔ OnOneLine xs ∧ OnOneLine ys :=
  List.forall_mem_append

theorem not_onOneLine_newline (indent : Nat) : ¬ OnOneLine [newline indent] := fun h =>
  Bool.false_ne_true (h _ List.mem_cons_self).symm

/-- What is written without a line feed **is on one line**. -/
theorem onOneLine_of_write {o : LayoutOptions} {pieces : List Piece}
    (h : '\n' ∉ (write o pieces).toList) : OnOneLine pieces := by
  intro piece hpiece
  rw [toList_write, List.mem_flatMap] at h
  cases piece with
  | text | spaces => rfl
  | newline indent => exact absurd ⟨_, hpiece, (isBreak_chars_newline o indent).1⟩ h
  | blankLine => exact absurd ⟨_, hpiece, (isBreak_chars_blankLine o).1⟩ h

/-- In more width pieces **stay within it**. -/
theorem staysWithin_mono {width width' : Nat} (hle : width ≤ width') {column : Nat}
    {pieces : List Piece} (h : staysWithin width column pieces = true) :
    staysWithin width' column pieces = true := by
  induction pieces generalizing column with
  | nil => rfl
  | cons piece pieces ih =>
    cases piece with
    | blankLine => exact ih h
    | text | spaces | newline =>
      obtain ⟨hhere, hlater⟩ := Bool.and_eq_true_iff.mp h
      exact Bool.and_eq_true_iff.mpr
        ⟨decide_eq_true ((of_decide_eq_true hhere).trans hle), ih hlater⟩

end Piece

/-! ## Looking ahead in more width -/

namespace Outlook

/-- In more width a look ahead finds **the same**, unless it was settled against the group. -/
def Widens (narrow wide : Outlook) : Prop := narrow = settled false ∨ wide = narrow

variable {width width' : Nat} {narrow wide : Outlook} {next next' : Nat → Outlook}

theorem Widens.refl (outlook : Outlook) : outlook.Widens outlook := .inr rfl

/-- A column within the width is **within more of it** as well. -/
theorem widens_upTo (hle : width ≤ width') (column : Nat) :
    (upTo width column).Widens (upTo width' column) := by
  by_cases hroom : column ≤ width
  · rw [upTo, upTo, if_neg (Nat.not_lt.mpr hroom), if_neg (Nat.not_lt.mpr (hroom.trans hle))]
    exact .refl _
  · exact .inl (if_pos (Nat.lt_of_not_le hroom))

/-- What is found next is looked for only **if the first step has not settled it**. -/
theorem Widens.andThen (h : narrow.Widens wide)
    (hnext : ∀ column, (next column).Widens (next' column)) :
    (narrow.andThen next).Widens (wide.andThen next') := by
  obtain rfl | rfl := h
  · exact .inl rfl
  · cases wide with
    | settled => exact .refl _
    | reached column => exact hnext column

theorem Widens.fits (h : narrow.Widens wide) (hfits : narrow.fits = true) : wide.fits = true := by
  obtain rfl | rfl := h
  · cases hfits
  · exact hfits

end Outlook

namespace Layout

open Outlook (Widens widens_upTo)
open Piece (OnOneLine)

variable {width width' : Nat} {layout other body : Layout} {mode : Mode}

/-- By induction on the layout, **at every column and in both modes**. -/
theorem widens_outlook (hle : width ≤ width') (mode : Mode) (layout : Layout) (column : Nat) :
    (layout.outlook width mode column).Widens (layout.outlook width' mode column) := by
  induction layout generalizing mode column with
  | nil | blankLine | text => cases mode <;> exact widens_upTo hle _
  | newline => cases mode <;> exact .refl _
  | softBreak =>
    cases mode with
    | flat => exact widens_upTo hle _
    | broken => exact .refl _
  | choice _ _ ihFlat ihBroken =>
    cases mode with
    | flat => exact ihFlat .flat column
    | broken => exact ihBroken .broken column
  | firstFit _ _ ihAttempt ihFallback =>
    cases mode with
    | flat => exact ihAttempt .flat column
    | broken => exact ihFallback .broken column
  | nest _ _ ih => cases mode <;> exact ih _ column
  | group _ ih => cases mode <;> exact ih _ column
  | seq _ _ ihFirst ihSecond => cases mode <;> exact (ihFirst _ column).andThen (ihSecond _)

theorem widens_outlookRest (hle : width ≤ width') (rest : Rest) (column : Nat) :
    (outlookRest width rest column).Widens (outlookRest width' rest column) := by
  induction rest generalizing column with
  | nil => exact .refl _
  | cons next rest ih => exact (widens_outlook hle next.1 next.2 column).andThen ih

/-- What fits **fits in more width**. -/
theorem fits_mono (hle : width ≤ width') {rest : Rest} {column : Nat}
    (h : fits width rest column body = true) : fits width' rest column body = true :=
  ((widens_outlook hle .flat body column).andThen (widens_outlookRest hle rest)).fits h

/-! ## Layouts that leave nothing to the width -/

/-- A **rigid** layout: it is set the same wherever it stands, whatever the width. -/
def IsRigid (layout : Layout) : Prop :=
  ∀ indent, ∃ pieces, ∀ width mode rest column, layout.set width mode indent rest column = pieces

theorem isRigid_nil : nil.IsRigid := fun _ => ⟨_, fun _ _ _ _ => rfl⟩

theorem isRigid_text (s : String) : (text s).IsRigid := fun _ => ⟨_, fun _ _ _ _ => rfl⟩

theorem isRigid_newline : newline.IsRigid := fun _ => ⟨_, fun _ _ _ _ => rfl⟩

theorem isRigid_blankLine : blankLine.IsRigid := fun _ => ⟨_, fun _ _ _ _ => rfl⟩

theorem IsRigid.nest (h : layout.IsRigid) (columns : Nat) : (nest columns layout).IsRigid :=
  fun indent => h (indent + columns)

/-- Rigid layouts in a row are set as **their pieces in a row**. -/
theorem IsRigid.seq (h : layout.IsRigid) (h' : other.IsRigid) : (seq layout other).IsRigid := by
  intro indent
  obtain ⟨xs, hxs⟩ := h indent
  obtain ⟨ys, hys⟩ := h' indent
  exact ⟨xs ++ ys, fun width mode rest column => by rw [set, hxs, hys]⟩

/-! ## Layouts that cannot stay on the line -/

/-- A layout that is **never set on one line** in a group of the given mode. -/
def BreaksIn (mode : Mode) (layout : Layout) : Prop :=
  ∀ width indent rest column, ¬ OnOneLine (layout.set width mode indent rest column)

theorem breaksIn_newline (mode : Mode) : newline.BreaksIn mode :=
  fun _ indent _ _ => Piece.not_onOneLine_newline indent

theorem breaksIn_softBreak (spaces : Nat) : (softBreak spaces).BreaksIn .broken :=
  fun _ indent _ _ => Piece.not_onOneLine_newline indent

theorem breaksIn_blankLine (mode : Mode) : blankLine.BreaksIn mode :=
  fun _ _ _ _ h => Bool.false_ne_true (h _ List.mem_cons_self).symm

theorem BreaksIn.nest (h : layout.BreaksIn mode) (columns : Nat) :
    (nest columns layout).BreaksIn mode :=
  fun width indent => h width (indent + columns)

/-- A line break on **either side** breaks the whole. -/
theorem BreaksIn.seq_left (h : layout.BreaksIn mode) (other : Layout) :
    (seq layout other).BreaksIn mode := fun width indent rest column hline => by
  rw [set, Piece.onOneLine_append] at hline
  exact h width indent _ column hline.1

theorem BreaksIn.seq_right (h : other.BreaksIn mode) (layout : Layout) :
    (seq layout other).BreaksIn mode := fun width indent rest column hline => by
  rw [set, Piece.onOneLine_append] at hline
  exact h width indent rest _ hline.2

/-- A group breaks if its body does **in both modes**, since either may be chosen. -/
theorem breaksIn_group (h : ∀ mode, body.BreaksIn mode) (mode : Mode) :
    (group body).BreaksIn mode := by
  intro width indent rest column
  cases mode with
  | flat => exact h .flat width indent rest column
  | broken =>
    rw [set]
    split_ifs
    · exact h .flat width indent rest column
    · exact h .broken width indent rest column

/-! ## Stable layouts -/

/-- How the place of a layout may change **in more width**: not at all, or it is flat. -/
inductive Eases : Mode → Rest → Mode → Rest → Prop
  | same (mode : Mode) (rest : Rest) : Eases mode rest mode rest
  | flat (mode : Mode) (rest rest' : Rest) : Eases mode rest .flat rest'

/-- A layout that, set on one line in a group of the given mode, **is set the
same in more width**. -/
def IsStable (mode : Mode) (layout : Layout) : Prop :=
  ∀ ⦃width width' : Nat⦄, width ≤ width' → ∀ ⦃rest rest' : Rest⦄ ⦃mode' : Mode⦄,
    Eases mode rest mode' rest' → ∀ ⦃indent column : Nat⦄,
      OnOneLine (layout.set width mode indent rest column) →
        layout.set width' mode' indent rest' column = layout.set width mode indent rest column

/-- What cannot stay on the line is **never on one line**, so there is nothing to keep. -/
theorem BreaksIn.isStable (h : layout.BreaksIn mode) : layout.IsStable mode :=
  fun _ _ _ _ _ _ _ _ _ hline => absurd hline (h _ _ _ _)

theorem IsRigid.isStable (h : layout.IsRigid) (mode : Mode) : layout.IsStable mode := by
  intro width width' _ rest rest' mode' _ indent column _
  obtain ⟨pieces, hset⟩ := h indent
  rw [hset, hset]

theorem isStable_softBreak (spaces : Nat) (mode : Mode) : (softBreak spaces).IsStable mode := by
  cases mode with
  | broken => exact (breaksIn_softBreak spaces).isStable
  | flat =>
    intro _ _ _ _ _ _ heases _ _ _
    cases heases <;> rfl

theorem IsStable.nest (h : layout.IsStable mode) (columns : Nat) :
    (nest columns layout).IsStable mode :=
  fun _ _ hle _ _ _ heases _ _ hline => h hle heases hline

/-- The first layout is set alike, so the second **starts in the same column**. -/
theorem IsStable.seq (h : layout.IsStable mode) (h' : other.IsStable mode) :
    (seq layout other).IsStable mode := by
  intro width width' hle rest rest' mode' heases indent column hline
  rw [set, Piece.onOneLine_append] at hline
  have hahead : Eases mode ((mode, other) :: rest) mode' ((mode', other) :: rest') := by
    cases heases with
    | same => exact .same mode _
    | flat => exact .flat mode _ _
  rw [set, set, h hle hahead hline.1, h' hle heases hline.2]

/-- Of a choice in a flat group **the flat side** is taken. -/
theorem IsStable.choice (h : layout.IsStable .flat) (broken : Layout) :
    (choice layout broken).IsStable .flat := by
  intro _ _ hle _ _ _ heases _ _ hline
  cases heases with
  | same => exact h hle (.same _ _) hline
  | flat => exact h hle (.flat _ _ _) hline

/-- A group is stable if **its contents** are, flat and broken. -/
theorem IsStable.group (h : ∀ mode, body.IsStable mode) (mode : Mode) :
    (group body).IsStable mode := by
  intro width width' hle rest rest' mode' heases indent column hline
  cases mode with
  | flat =>
    obtain rfl : mode' = .flat := by cases heases <;> rfl
    exact h .flat hle (.flat _ _ _) hline
  | broken =>
    by_cases hfits : fits width rest column body = true
    · rw [set, if_pos hfits] at hline ⊢
      cases heases with
      | same =>
        rw [set, if_pos (fits_mono hle hfits)]
        exact h .flat hle (.same _ _) hline
      | flat => exact h .flat hle (.flat _ _ _) hline
    · rw [set, if_neg hfits] at hline ⊢
      cases heases with
      | same =>
        rw [set]
        split_ifs
        · exact h .broken hle (.flat _ _ _) hline
        · exact h .broken hle (.same _ _) hline
      | flat => exact h .broken hle (.flat _ _ _) hline

/-- An attempt before a fallback of several lines is **what is on one line**. -/
theorem IsRigid.firstFit (h : layout.IsRigid) (h' : ∀ mode, other.BreaksIn mode) (mode : Mode) :
    (firstFit layout other).IsStable mode := by
  intro width width' hle rest rest' mode' _ indent column hline
  obtain ⟨pieces, hset⟩ := h indent
  simp only [set, hset] at hline ⊢
  by_cases hfits : Piece.staysWithin width column pieces = true
  · rw [if_pos hfits, if_pos (Piece.staysWithin_mono hle hfits)]
  · rw [if_neg hfits] at hline
    exact absurd hline (h' mode _ _ _ _)

end Layout

end Reflow
