/-!
# Syntax/Comment — comments and where they are attached
-/

namespace Reflow

namespace Comment

/-- How a comment ends: a line comment runs to the end of its line. -/
inductive Kind where
  | line
  | block
  deriving DecidableEq, Repr

/-- Where a comment stands: before or after the thing it is attached to, or in a place that has
nothing to attach it to. -/
inductive Placement where
  | leading
  | trailing
  | dangling
  deriving DecidableEq, Repr

end Comment

/-- A **comment**: its text with its delimiters. -/
structure Comment where
  raw : String
  kind : Comment.Kind
  placement : Comment.Placement
  deriving DecidableEq, Repr

namespace Comment

def isLine (c : Comment) : Bool := c.kind == .line

def isLeading (c : Comment) : Bool := c.placement == .leading

def isTrailing (c : Comment) : Bool := c.placement == .trailing

def isDangling (c : Comment) : Bool := c.placement == .dangling

/-- Whether the text of the comment spans lines. -/
def spansLines (c : Comment) : Bool := c.raw.toList.contains '\n'

end Comment

end Reflow
