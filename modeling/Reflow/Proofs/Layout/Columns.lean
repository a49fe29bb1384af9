import Reflow.Layout.Set
import Mathlib.Algebra.Ring.Nat

/-!
# Proofs/Layout/Columns — indentation in levels, and the columns of texts

A layout is indented by whole levels, so its indentation is as many tabs, or as many times the
columns of one level in spaces (`Piece.indentation_mul`).  On one line the columns of texts add up,
and the last of them tells whether all are within the width (`Piece.staysWithin_texts`).
-/

namespace Reflow.Piece

/-! ## Levels -/

/-- So many **levels of indentation**: tabs, or the columns of each level in spaces. -/
def levels (o : LayoutOptions) (depth : Nat) : List Char :=
  if o.useTabs then List.replicate depth '\t' else List.replicate (depth * o.indentWidth) ' '

/-- The indentation of whole levels is **those levels**. -/
theorem indentation_mul {o : LayoutOptions} (h : 0 < o.indentWidth) (depth : Nat) :
    indentation o (depth * o.indentWidth) = levels o depth := by
  rw [indentation, levels, Nat.mul_div_cancel depth h, Nat.mul_mod_left, List.replicate_zero,
    List.append_nil]

@[simp] theorem indentation_zero (o : LayoutOptions) : indentation o 0 = [] := by
  simp [indentation]

/-! ## Texts -/

/-- The columns of texts **add up**. -/
theorem columnAfterAll_texts (column : Nat) (ts : List String) :
    columnAfterAll column (ts.map text) = column + (ts.map Text.width).sum := by
  induction ts generalizing column with
  | nil => rfl
  | cons s ts ih =>
    rw [List.map_cons, columnAfterAll_cons, ih, List.map_cons, List.sum_cons, columnAfter,
      Nat.add_assoc]

/-- A text must leave its column within the width. -/
theorem staysWithin_text (width column : Nat) (s : String) (pieces : List Piece) :
    staysWithin width column (text s :: pieces) =
      (decide (column + Text.width s ≤ width) &&
        staysWithin width (column + Text.width s) pieces) :=
  rfl

/-- Texts stay within the width if **all of them together** do. -/
theorem staysWithin_texts (width column : Nat) {ts : List String} (h : ts ≠ []) :
    staysWithin width column (ts.map text) = decide (column + (ts.map Text.width).sum ≤ width) := by
  induction ts generalizing column with
  | nil => exact absurd rfl h
  | cons s ts ih =>
    rw [List.map_cons, staysWithin_text, List.map_cons, List.sum_cons, ← Nat.add_assoc]
    rcases ts with _ | ⟨next, ts⟩
    · simp [staysWithin]
    · rw [ih _ (List.cons_ne_nil next ts), ← Bool.decide_and, decide_eq_decide]
      omega

end Reflow.Piece
