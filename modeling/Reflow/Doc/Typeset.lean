import Reflow.Doc.Resolve
import Reflow.Layout.Set

/-!
# Doc/Typeset — documents as text

A document is resolved, set in the print width and written.
-/

namespace Reflow

/-- Why a document cannot be typeset. -/
inductive TypesetError where
  /-- A level of indentation has no columns. -/
  | noIndentWidth
  deriving DecidableEq, Repr

def TypesetError.message : TypesetError → String
  | .noIndentWidth => "assertion failed: options.tab_size > 0"

namespace Doc

/-- The **pieces of a document** in the print width. -/
def pieces (o : LayoutOptions) (doc : Doc) : List Piece :=
  (doc.layout o.indentWidth).pieces o.printWidth

/-- The **text of a document**.  Refused without an indentation to speak of, whatever the document
and whether or not it is indented. -/
def typeset (o : LayoutOptions) (doc : Doc) : Except TypesetError String :=
  if o.indentWidth = 0 then .error .noIndentWidth
  else .ok (Piece.write o (doc.pieces o))

end Doc

end Reflow
