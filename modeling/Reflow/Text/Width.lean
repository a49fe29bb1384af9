import Reflow.Text.Width.Ahead

/-!
# Text/Width — how many columns a text takes

Columns are what a print width counts.  Most characters take none, one or two of them whatever their
neighbours are; those of a ligature, of an emoji sequence and of a line break are measured together,
from the last to the first.
-/

namespace Reflow.Text

/-- The **columns of one character** by itself.  Below U+00AD the tables hold nothing, so the plain
texts of everyday input never look at them. -/
def charWidth (c : Char) : Nat :=
  if c.toNat < 0xAD then 1
  else if inRanges zeroWidthRanges c.toNat then 0
  else if inRanges wideRanges c.toNat then 2
  else if c.toNat = 0x17D8 then 3
  else 1

/-- What is known of a text once it is **measured**: its columns, what it is to a character before
it, and a selector it begins with. -/
structure Measured where
  columns : Int
  ahead : Ahead
  selector : Option Selector
  deriving DecidableEq, Repr

namespace Measured

/-- The empty text. -/
def empty : Measured := ⟨0, .nothing, none⟩

/-- A character before a text of those columns, if no selector chooses its form. -/
def consPlain (c : Char) (columns : Int) (ahead : Ahead) : Measured :=
  match Selector.ofChar? c, ahead.step? c with
  | some selector, _ => ⟨columns, selector.behind ahead, some selector⟩
  | none, some (added, ahead) => ⟨columns + added, ahead, none⟩
  | none, none => ⟨columns + charWidth c, .ofLast c, none⟩

/-- A character **before** a measured text. -/
def cons (c : Char) (rest : Measured) : Measured :=
  match rest.selector with
  | none => consPlain c rest.columns rest.ahead
  | some selector =>
    match selector.choose? rest.ahead c with
    | some (added, ahead) => ⟨rest.columns + added, ahead, none⟩
    | none => consPlain c rest.columns (if rest.ahead.isLigature then rest.ahead else .nothing)

end Measured

/-- A text, measured from its end. -/
def measure (text : List Char) : Measured := text.foldr Measured.cons .empty

/-- The **columns of a text**. -/
def columns (text : List Char) : Nat := (measure text).columns.toNat

/-- The **width** of a text. -/
def width (s : String) : Nat := columns s.toList

@[simp] theorem measure_nil : measure [] = .empty := rfl

@[simp] theorem measure_cons (c : Char) (rest : List Char) :
    measure (c :: rest) = .cons c (measure rest) := rfl

@[simp] theorem columns_nil : columns [] = 0 := rfl

@[simp] theorem width_empty : width "" = 0 := rfl

end Reflow.Text
