import Reflow.Proofs.Layout.Columns
import Mathlib.Algebra.GroupWithZero.Divisibility
import Mathlib.Tactic.SplitIfs

/-!
# Proofs/Layout/Lines — pieces as lines

A layout whose nesting goes by whole levels is set as pieces that are indented by whole levels
(`Layout.IsLeveled.set`).  Such pieces are lines with a level and a text each (`Piece.lines`), and
how a level and the mark between two lines are spelled is all that the options add
(`Piece.write_eq_lines`).
-/

namespace Reflow

/-- A **line** of output: the levels it is indented by, and what stands behind the indentation. -/
structure Line where
  level : Nat
  text : List Char
  deriving DecidableEq, Repr

/-- A line, written out. -/
def Line.chars (o : LayoutOptions) (line : Line) : List Char :=
  Piece.levels o line.level ++ line.text

namespace Piece

/-- A piece whose text satisfies `P`, or whose indentation is a number of **whole levels** of so
many columns. -/
def IsLeveled (P : String → Prop) (columns : Nat) : Piece → Prop
  | text s => P s
  | newline indent => columns ∣ indent
  | spaces _ | blankLine => True

/-- What pieces put on the **line they start on**, and the lines after it. -/
def linesFrom (columns : Nat) : List Piece → List Char × List Line
  | [] => ([], [])
  | piece :: rest =>
    let (here, later) := linesFrom columns rest
    match piece with
    | text s => (s.toList ++ here, later)
    | spaces n => (List.replicate n ' ' ++ here, later)
    | newline indent => ([], ⟨indent / columns, here⟩ :: later)
    | blankLine => ([], ⟨0, here⟩ :: later)

/-- The **lines of pieces**, with levels of so many columns; the first one is not indented. -/
def lines (columns : Nat) (pieces : List Piece) : List Line :=
  ⟨0, (linesFrom columns pieces).1⟩ :: (linesFrom columns pieces).2

theorem levels_zero (o : LayoutOptions) : levels o 0 = [] := by
  rw [levels, Nat.zero_mul]
  split_ifs <;> rfl

theorem flatMap_chars_eq_linesFrom {o : LayoutOptions} (hindent : 0 < o.indentWidth)
    {P : String → Prop} {pieces : List Piece}
    (h : ∀ piece ∈ pieces, piece.IsLeveled P o.indentWidth) :
    pieces.flatMap (chars o) = (linesFrom o.indentWidth pieces).1 ++
      (linesFrom o.indentWidth pieces).2.flatMap fun line => o.lineBreak.chars ++ line.chars o := by
  induction pieces with
  | nil => rfl
  | cons piece rest ih =>
    obtain ⟨hpiece, hrest⟩ := List.forall_mem_cons.mp h
    rw [List.flatMap_cons, ih hrest]
    cases piece with
    | text s => exact (List.append_assoc ..).symm
    | spaces n => exact (List.append_assoc ..).symm
    | newline indent =>
      obtain ⟨level, rfl⟩ := hpiece
      rw [linesFrom, List.flatMap_cons, Line.chars, Nat.mul_div_cancel_left level hindent, chars,
        Nat.mul_comm, indentation_mul hindent]
      simp only [List.append_assoc, List.nil_append]
    | blankLine =>
      rw [linesFrom, List.flatMap_cons, Line.chars, levels_zero, chars]
      simp only [List.append_assoc, List.nil_append]

theorem append_flatMap_eq_intercalate (mark : List Char) (f : Line → List Char) (line : Line)
    (later : List Line) :
    f line ++ later.flatMap (fun line => mark ++ f line) =
      mark.intercalate ((line :: later).map f) := by
  induction later generalizing line with
  | nil => simp
  | cons next later ih =>
    rw [List.map_cons, List.map_cons, List.intercalate_cons_cons, ← List.map_cons, ← ih,
      List.flatMap_cons, List.append_assoc, List.append_assoc]

/-- Pieces of whole levels are **written as their lines**, with the mark
between each two of them. -/
theorem write_eq_lines {o : LayoutOptions} (hindent : 0 < o.indentWidth) {P : String → Prop}
    {pieces : List Piece} (h : ∀ piece ∈ pieces, piece.IsLeveled P o.indentWidth) :
    (write o pieces).toList =
      o.lineBreak.chars.intercalate ((lines o.indentWidth pieces).map (Line.chars o)) := by
  rw [toList_write, flatMap_chars_eq_linesFrom hindent h, lines, ← append_flatMap_eq_intercalate,
    Line.chars, levels_zero, List.nil_append]

/-- A character is in the text of a line only if it is **in the text of a piece**, blanks apart. -/
theorem not_mem_lines {c : Char} (hblank : c ≠ ' ') {columns : Nat} {pieces : List Piece}
    (h : ∀ piece ∈ pieces, piece.IsLeveled (fun s => c ∉ s.toList) columns) :
    ∀ line ∈ lines columns pieces, c ∉ line.text := by
  suffices hfrom : c ∉ (linesFrom columns pieces).1 ∧
      ∀ line ∈ (linesFrom columns pieces).2, c ∉ line.text from
    List.forall_mem_cons.mpr hfrom
  induction pieces with
  | nil => exact ⟨nofun, nofun⟩
  | cons piece rest ih =>
    obtain ⟨hpiece, hrest⟩ := List.forall_mem_cons.mp h
    obtain ⟨htext, hlater⟩ := ih hrest
    cases piece with
    | text s => exact ⟨List.not_mem_append hpiece htext, hlater⟩
    | spaces n =>
      exact ⟨List.not_mem_append (fun hmem => hblank (List.eq_of_mem_replicate hmem)) htext, hlater⟩
    | newline | blankLine => exact ⟨List.not_mem_nil, List.forall_mem_cons.mpr ⟨htext, hlater⟩⟩

end Piece

namespace Layout

/-- A layout of texts that satisfy `P`, **nested by levels** of so many columns. -/
def IsLeveled (P : String → Prop) (columns : Nat) : Layout → Prop
  | nil | newline | blankLine | softBreak _ => True
  | text s => P s
  | nest n body => n = columns ∧ body.IsLeveled P columns
  | group body => body.IsLeveled P columns
  | choice first second | firstFit first second | seq first second =>
    first.IsLeveled P columns ∧ second.IsLeveled P columns

/-- A layout that is nested by levels is set **at whole levels**, if it starts at one. -/
theorem IsLeveled.set {P : String → Prop} {columns : Nat} {layout : Layout}
    (h : layout.IsLeveled P columns) (width : Nat) (mode : Mode) {indent : Nat}
    (hindent : columns ∣ indent) (rest : Rest) (column : Nat) :
    ∀ piece ∈ set width layout mode indent rest column, piece.IsLeveled P columns := by
  induction layout generalizing mode indent rest column with
  | nil => nofun
  | text s => exact List.forall_mem_singleton.mpr h
  | newline => exact List.forall_mem_singleton.mpr hindent
  | blankLine => exact List.forall_mem_singleton.mpr trivial
  | softBreak spaces =>
    cases mode with
    | flat => exact List.forall_mem_singleton.mpr trivial
    | broken => exact List.forall_mem_singleton.mpr hindent
  | choice flat broken ihFlat ihBroken =>
    cases mode with
    | flat => exact ihFlat h.1 .flat hindent rest column
    | broken => exact ihBroken h.2 .broken hindent rest column
  | firstFit attempt fallback ihAttempt ihFallback =>
    rw [Layout.set]
    split_ifs
    · exact ihAttempt h.1 mode hindent [] column
    · exact ihFallback h.2 mode hindent rest column
  | nest n body ih =>
    obtain ⟨rfl, hbody⟩ := h
    exact ih hbody mode (Nat.dvd_add hindent (dvd_refl n)) rest column
  | group body ih =>
    cases mode with
    | flat => exact ih h .flat hindent rest column
    | broken =>
      rw [Layout.set]
      split_ifs
      · exact ih h .flat hindent rest column
      · exact ih h .broken hindent rest column
  | seq first second ihFirst ihSecond =>
    rw [Layout.set]
    exact List.forall_mem_append.mpr
      ⟨ihFirst h.1 mode hindent _ column, ihSecond h.2 mode hindent rest _⟩

theorem IsLeveled.pieces {P : String → Prop} {columns : Nat} {layout : Layout}
    (h : layout.IsLeveled P columns) (width : Nat) :
    ∀ piece ∈ layout.pieces width, piece.IsLeveled P columns :=
  h.set width .broken (dvd_zero columns) [] 0

end Layout

end Reflow
