/-!
# Layout/Basic — what is left to decide once the width is known

A layout holds only the choices that depend on the width: a group that is flat or broken, and a
first attempt with its fallback.  Everything else of a document is settled by then.
-/

namespace Reflow

/-- Whether the breaks of the innermost group are kept on the line. -/
inductive Mode where
  | flat
  | broken
  deriving DecidableEq, Repr

/-- A **layout**. -/
inductive Layout where
  | nil
  | text (s : String)
  /-- A line break that no group can undo, followed by indentation. -/
  | newline
  /-- A line break whose line stays empty: no indentation follows. -/
  | blankLine
  /-- That many spaces in a flat group, a line break in a broken one. -/
  | softBreak (spaces : Nat)
  /-- One of two layouts, by the mode. -/
  | choice (flat broken : Layout)
  /-- The attempt if it stays within the width, whatever follows; otherwise the fallback. -/
  | firstFit (attempt fallback : Layout)
  /-- Lines broken inside are indented by that many columns more. -/
  | nest (columns : Nat) (body : Layout)
  /-- Flat if the body and what follows it up to the next line break fit on the line. -/
  | group (body : Layout)
  | seq (first second : Layout)
  deriving Repr, Inhabited, DecidableEq

end Reflow
