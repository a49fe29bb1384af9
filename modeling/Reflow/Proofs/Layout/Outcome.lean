import Reflow.Layout.Set
import Reflow.Text.Whitespace
import Reflow.Proofs.Text.Words

/-!
# Proofs/Layout/Outcome — what a layout may be set as

The width decides which groups are flat and which attempts are given up.  `Layout.MayPrint` forgets
how it decides: whatever the width, a layout is set as pieces it may print (`Layout.set_mayPrint`),
so what holds of all of these holds at every width.
-/

namespace Reflow

namespace Piece

/-- A **line break**, written out: blanks with a line feed among them. -/
def IsBreak (run : List Char) : Prop := '\n' ∈ run ∧ Text.IsBlankRun run

theorem isBlankRun_indentation (o : LayoutOptions) (columns : Nat) :
    Text.IsBlankRun (indentation o columns) := by
  intro c hc
  rw [indentation] at hc
  split_ifs at hc
  · rcases List.mem_append.mp hc with hc | hc
    · rw [List.eq_of_mem_replicate hc]
      rfl
    · rw [List.eq_of_mem_replicate hc]
      rfl
  · rw [List.eq_of_mem_replicate hc]
    rfl

/-- The break of an empty line is **the mark alone**: nothing is indented there. -/
theorem isBreak_chars_blankLine (o : LayoutOptions) : IsBreak (chars o .blankLine) := by
  rw [chars]
  cases o.lineBreak with
  | lf => exact ⟨.head _, List.forall_mem_singleton.mpr rfl⟩
  | crlf =>
    exact ⟨.tail _ (.head _), List.forall_mem_cons.mpr ⟨rfl, List.forall_mem_singleton.mpr rfl⟩⟩

theorem isBreak_chars_newline (o : LayoutOptions) (indent : Nat) :
    IsBreak (chars o (.newline indent)) :=
  have hbreak := isBreak_chars_blankLine o
  ⟨List.mem_append_left _ hbreak.1, hbreak.2.append (isBlankRun_indentation o indent)⟩

end Piece

namespace Layout

/-- The pieces a layout **may be set as** in a group of the given mode.  A group that is broken may
hold flat ones, and an attempt may be given up; which it is does not matter here. -/
inductive MayPrint : Mode → Layout → List Piece → Prop
  | nil (mode : Mode) : MayPrint mode nil []
  | text (mode : Mode) (s : String) : MayPrint mode (text s) [.text s]
  | newline (mode : Mode) (indent : Nat) : MayPrint mode newline [.newline indent]
  | blankLine (mode : Mode) : MayPrint mode blankLine [.blankLine]
  | spaces (n : Nat) : MayPrint .flat (softBreak n) [.spaces n]
  | softNewline (n indent : Nat) : MayPrint .broken (softBreak n) [.newline indent]
  | flat {flat broken : Layout} {pieces : List Piece} (h : MayPrint .flat flat pieces) :
      MayPrint .flat (choice flat broken) pieces
  | broken {flat broken : Layout} {pieces : List Piece} (h : MayPrint .broken broken pieces) :
      MayPrint .broken (choice flat broken) pieces
  | attempt {mode : Mode} {attempt fallback : Layout} {pieces : List Piece}
      (h : MayPrint mode attempt pieces) : MayPrint mode (firstFit attempt fallback) pieces
  | fallback {mode : Mode} {attempt fallback : Layout} {pieces : List Piece}
      (h : MayPrint mode fallback pieces) : MayPrint mode (firstFit attempt fallback) pieces
  | nest {mode : Mode} {columns : Nat} {body : Layout} {pieces : List Piece}
      (h : MayPrint mode body pieces) : MayPrint mode (nest columns body) pieces
  | group {mode : Mode} (inner : Mode) {body : Layout} {pieces : List Piece}
      (h : MayPrint inner body pieces) : MayPrint mode (group body) pieces
  | seq {mode : Mode} {first second : Layout} {before after : List Piece}
      (h₁ : MayPrint mode first before) (h₂ : MayPrint mode second after) :
      MayPrint mode (seq first second) (before ++ after)

/-- A layout **is set as pieces it may print**, at every width and wherever it stands. -/
theorem set_mayPrint (width : Nat) (layout : Layout) (mode : Mode) (indent : Nat) (rest : Rest)
    (column : Nat) : MayPrint mode layout (set width layout mode indent rest column) := by
  induction layout generalizing mode indent rest column with
  | nil => exact .nil mode
  | text s => exact .text mode s
  | newline => exact .newline mode indent
  | blankLine => exact .blankLine mode
  | softBreak n =>
    cases mode with
    | flat => exact .spaces n
    | broken => exact .softNewline n indent
  | choice flat broken ihFlat ihBroken =>
    cases mode with
    | flat => exact .flat (ihFlat ..)
    | broken => exact .broken (ihBroken ..)
  | firstFit attempt fallback ihAttempt ihFallback =>
    rw [set]
    split_ifs
    · exact .attempt (ihAttempt ..)
    · exact .fallback (ihFallback ..)
  | nest columns body ih => exact .nest (ih ..)
  | group body ih =>
    cases mode with
    | flat => exact .group .flat (ih ..)
    | broken =>
      rw [set]
      split_ifs
      · exact .group .flat (ih ..)
      · exact .group .broken (ih ..)
  | seq first second ihFirst ihSecond => exact .seq (ihFirst ..) (ihSecond ..)

theorem pieces_mayPrint (width : Nat) (layout : Layout) :
    MayPrint .broken layout (layout.pieces width) :=
  set_mayPrint ..

end Layout

end Reflow
