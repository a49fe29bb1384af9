import Reflow.Syntax.Comment
import Reflow.Doc.Basic

/-!
# Markup/Comments — how comments are laid out by default

A host may lay comments out itself; this is what it gets if it does not.  A trailing line comment is
held back to the end of its line, where nothing can run into it.
-/

namespace Reflow.Comment

/-- A comment before a thing, with what separates the two. -/
def leadingDocs (c : Comment) : List Doc :=
  [.text c.raw, if c.isLine || c.spansLines then .line .hard else .text " "]

/-- A comment after a thing. -/
def trailingDoc (c : Comment) : Doc :=
  let printed := Doc.text " " ++ Doc.text c.raw
  if c.isLine then .lineSuffix printed else printed

/-- A document **between its leading and trailing comments**; without any it is unchanged. -/
def around (comments : List Comment) (doc : Doc) : Doc :=
  let leading := comments.filter isLeading
  let trailing := comments.filter isTrailing
  if leading.isEmpty && trailing.isEmpty then doc
  else .concat (leading.flatMap leadingDocs ++ [doc] ++ trailing.map trailingDoc)

/-- The **dangling comments**, one a line; on lines of their own, indented, unless they are to stay
at the same indentation. -/
def dangling (comments : List Comment) (sameIndent : Bool) : Doc :=
  match (comments.filter isDangling).map fun c => Doc.text c.raw with
  | [] => .nil
  | docs =>
    let joined := Doc.concat (docs.intersperse (.line .hard))
    if sameIndent then joined else .indent (Doc.line .hard ++ joined)

end Reflow.Comment
