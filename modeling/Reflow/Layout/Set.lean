import Reflow.Layout.Basic
import Reflow.Layout.Piece

/-!
# Layout/Set — setting a layout in a width

`Layout.set` walks a layout once and settles each choice where it stands.  A group looks ahead over
its own contents and then over everything that still has to be set, up to the first line break; an
attempt looks at nothing but itself, and is set to see whether it stays within the width.
-/

namespace Reflow

/-- What a **look ahead** finds: the answer, or the column it has reached without one. -/
inductive Outlook where
  | settled (fits : Bool)
  | reached (column : Nat)
  deriving DecidableEq, Repr

namespace Outlook

/-- A column that has been reached settles the look ahead if it lies beyond the width. -/
def upTo (width column : Nat) : Outlook :=
  if width < column then settled false else reached column

/-- Look on from where a look ahead stopped. -/
def andThen : Outlook → (Nat → Outlook) → Outlook
  | settled fits, _ => settled fits
  | reached column, next => next column

/-- What the look ahead says once nothing is left to see. -/
def fits : Outlook → Bool
  | settled fits => fits
  | reached _ => true

end Outlook

namespace Layout

/-- What is still to be set after a layout, nearest first, with the mode of each part. -/
abbrev Rest := List (Mode × Layout)

/-- **Looking ahead** over a layout.  The first line break ends the look ahead: what stands before
it fits.  A line break that no group can undo rules a flat group out. -/
def outlook (width : Nat) : Mode → Layout → Nat → Outlook
  | _, nil, column | _, blankLine, column => .upTo width column
  | _, text s, column => .upTo width (column + Text.width s)
  | .flat, newline, _ => .settled false
  | .broken, newline, _ => .settled true
  | .flat, softBreak spaces, column => .upTo width (column + spaces)
  | .broken, softBreak _, _ => .settled true
  | .flat, choice flat _, column => outlook width .flat flat column
  | .broken, choice _ broken, column => outlook width .broken broken column
  | .flat, firstFit attempt _, column => outlook width .flat attempt column
  | .broken, firstFit _ fallback, column => outlook width .broken fallback column
  | mode, nest _ body, column | mode, group body, column => outlook width mode body column
  | mode, seq first second, column =>
    (outlook width mode first column).andThen (outlook width mode second)

/-- Looking ahead over what is still to be set. -/
def outlookRest (width : Nat) : Rest → Nat → Outlook
  | [], column => .reached column
  | (mode, layout) :: rest, column =>
    (outlook width mode layout column).andThen (outlookRest width rest)

/-- Whether a group **fits** at a column: its body, flat, and then what follows it. -/
def fits (width : Nat) (rest : Rest) (column : Nat) (body : Layout) : Bool :=
  ((outlook width .flat body column).andThen (outlookRest width rest)).fits

/-- The **pieces of a layout** that starts at a column, before `rest`. -/
def set (width : Nat) (layout : Layout) (mode : Mode) (indent : Nat) (rest : Rest)
    (column : Nat) : List Piece :=
  match layout with
  | nil => []
  | text s => [.text s]
  | newline => [.newline indent]
  | blankLine => [.blankLine]
  | softBreak spaces =>
    match mode with
    | .flat => [.spaces spaces]
    | .broken => [.newline indent]
  | choice flat broken =>
    match mode with
    | .flat => set width flat .flat indent rest column
    | .broken => set width broken .broken indent rest column
  | firstFit attempt fallback =>
    let tried := set width attempt mode indent [] column
    if Piece.staysWithin width column tried then tried
    else set width fallback mode indent rest column
  | nest columns body => set width body mode (indent + columns) rest column
  | group body =>
    match mode with
    | .flat => set width body .flat indent rest column
    | .broken =>
      if fits width rest column body then set width body .flat indent rest column
      else set width body .broken indent rest column
  | seq first second =>
    let before := set width first mode indent ((mode, second) :: rest) column
    before ++ set width second mode indent rest (Piece.columnAfterAll column before)

/-- The pieces of a layout that stands alone: it starts in the first column, and its breaks outside
all groups are broken. -/
def pieces (width : Nat) (layout : Layout) : List Piece :=
  set width layout .broken 0 [] 0

end Layout

end Reflow
