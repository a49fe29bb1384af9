import Reflow.Text.Width
import Reflow.Options.Basic

/-!
# Layout/Piece — output before it is written

A layout is set as a list of pieces.  Pieces fix every line break and every column, and nothing
else: how a line break and an indentation are spelled is the last step, `Piece.chars`, and no choice
depends on it.
-/

namespace Reflow

/-- One piece of output. -/
inductive Piece where
  | text (s : String)
  | spaces (n : Nat)
  /-- A line break and the indentation of the next line. -/
  | newline (indent : Nat)
  /-- A line break alone.  The column is kept: it is the one the line had before. -/
  | blankLine
  deriving DecidableEq, Repr

namespace Piece

/-! ## Columns -/

/-- The column after a piece that starts at the given one. -/
def columnAfter (column : Nat) : Piece → Nat
  | text s => column + Text.width s
  | spaces n => column + n
  | newline indent => indent
  | blankLine => column

/-- The column after several pieces. -/
def columnAfterAll (column : Nat) (pieces : List Piece) : Nat :=
  pieces.foldl columnAfter column

@[simp] theorem columnAfterAll_nil (column : Nat) : columnAfterAll column [] = column := rfl

@[simp] theorem columnAfterAll_cons (column : Nat) (piece : Piece) (pieces : List Piece) :
    columnAfterAll column (piece :: pieces) = columnAfterAll (piece.columnAfter column) pieces :=
  rfl

@[simp] theorem columnAfterAll_append (column : Nat) (xs ys : List Piece) :
    columnAfterAll column (xs ++ ys) = columnAfterAll (columnAfterAll column xs) ys :=
  List.foldl_append

/-- The column must be **within the width** after every piece but a blank line, a piece that takes
no column included. -/
def staysWithin (width column : Nat) : List Piece → Bool
  | [] => true
  | blankLine :: rest => staysWithin width column rest
  | piece :: rest =>
    piece.columnAfter column ≤ width && staysWithin width (piece.columnAfter column) rest

/-- Pieces stay within the width exactly if each part of them does, from where it starts. -/
theorem staysWithin_append (width column : Nat) (xs ys : List Piece) :
    staysWithin width column (xs ++ ys) =
      (staysWithin width column xs && staysWithin width (columnAfterAll column xs) ys) := by
  induction xs generalizing column with
  | nil => rfl
  | cons piece xs ih =>
    cases piece <;> simp [staysWithin, ih, columnAfter, Bool.and_assoc]

/-! ## Characters -/

/-- The characters of an indentation: spaces, or as many whole tabs as go into it and
spaces for the rest. -/
def indentation (o : LayoutOptions) (columns : Nat) : List Char :=
  if o.useTabs then
    List.replicate (columns / o.indentWidth) '\t' ++ List.replicate (columns % o.indentWidth) ' '
  else List.replicate columns ' '

/-- The characters of a piece. -/
def chars (o : LayoutOptions) : Piece → List Char
  | text s => s.toList
  | spaces n => List.replicate n ' '
  | newline indent => o.lineBreak.chars ++ indentation o indent
  | blankLine => o.lineBreak.chars

/-- The text that pieces are written as. -/
def write (o : LayoutOptions) (pieces : List Piece) : String :=
  String.ofList (pieces.flatMap (chars o))

@[simp] theorem toList_write (o : LayoutOptions) (pieces : List Piece) :
    (write o pieces).toList = pieces.flatMap (chars o) :=
  String.toList_ofList

end Piece

end Reflow
