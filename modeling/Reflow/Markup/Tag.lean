import Reflow.Syntax.Tree
import Reflow.Options.Basic
import Reflow.Doc.Basic

/-!
# Markup/Tag — tags, braces and parentheses

The layouts of everything around the children, put together from documents that are already there:
each definition takes the documents of its parts and says how they are joined.
-/

namespace Reflow

/-! ## Tags -/

namespace OpeningTag

/-- The end of an opening tag on one line. -/
def endOnLine (o : LanguageOptions) (tag : OpeningTag) : String :=
  if tag.selfClosing then if o.closingBracketSameLine then "/>" else " />"
  else ">"

/-- Whether the bracket follows the last attribute or the name directly.  It needs a line of its own
after a comment in the name and after a trailing comment of the last attribute. -/
def bracketSameLine (o : LanguageOptions) (tag : OpeningTag) : Bool :=
  tag.attributes.isEmpty && !tag.nameHasComments ||
    o.closingBracketSameLine && (!tag.nameHasComments || !tag.attributes.isEmpty) &&
      !tag.attributes.getLast?.any fun last => last.comments.any Comment.isTrailing

/-- The attributes of a tag, **on one line or one a line**. -/
def spread (o : LanguageOptions) (tag : OpeningTag) (name typeArguments : Doc)
    (attributes : List Doc) : Doc :=
  let bracket := if tag.bracketSameLine o then [] else [Doc.line .orNil]
  .group (tag.attributes.any Attribute.isMultilineString) <| .concat <|
    [.text "<", name, typeArguments,
      .indent (.concat (attributes.flatMap fun doc => [.line .orSpace, doc]))] ++
    bracket ++ [.text (if tag.selfClosing then "/>" else ">")]

/-- An **opening tag**, given its name, type arguments and attributes.  A self-closing tag without
attributes never breaks, and a single string attribute is never split from its tag. -/
def doc (o : LanguageOptions) (tag : OpeningTag) (name typeArguments : Doc)
    (attributes : List Doc) : Doc :=
  match tag.attributes, attributes with
  | [], _ =>
    if tag.selfClosing && !tag.nameHasComments then
      .concat [.text "<", name, typeArguments, .text (tag.endOnLine o)]
    else tag.spread o name typeArguments attributes
  | [lone], [only] =>
    if lone.isPlainString && !tag.nameHasComments then
      .grouped (.concat
        [.text "<", name, typeArguments, .text " ", only, .text (tag.endOnLine o)])
    else tag.spread o name typeArguments attributes
  | _, _ => tag.spread o name typeArguments attributes

end OpeningTag

namespace Tag

/-- A closing tag. -/
def closing (name : Doc) : Doc := .concat [.text "</", name, .text ">"]

/-- An attribute with a value. -/
def valued (name value : Doc) : Doc := .concat [name, .text "=", value]

/-- A **tag of a fragment**, given what its comments are printed as.  A line comment needs the line
it ends to itself. -/
def fragment (start : String) (spaced : Bool) (comments : List Comment) (inside : Doc) : Doc :=
  let ownLines := comments.any Comment.isLine
  let before :=
    if ownLines then .line .hard
    else if spaced && comments.any Comment.isDangling then .text " " else .nil
  let after := if ownLines then .line .hard else .nil
  .concat [.text start, .indent (.concat [before, inside]), after, .text ">"]

/-- `<>`. -/
def openingFragment (comments : List Comment) (inside : Doc) : Doc :=
  fragment "<" false comments inside

/-- `</>`, with a space before a comment that stays on the line. -/
def closingFragment (comments : List Comment) (inside : Doc) : Doc :=
  fragment "</" true comments inside

end Tag

/-! ## Braces -/

/-- The parents between whose tags an expression stands as a child. -/
def Parent.isMarkup : Parent → Bool
  | jsxElement | jsxFragment => true
  | _ => false

namespace ExpressionForm

/-- The forms that bring **lines of their own**, so that braces hug them.  An operator does so only
as a child. -/
def isHugged (asChild : Bool) : ExpressionForm → Bool
  | array | object | arrowFunction | call | optionalCall | function | templateLiteral
  | taggedTemplate | doBlock => true
  | conditional | binary | logical => asChild
  | stringLiteral _ | other => false

end ExpressionForm

namespace Container

/-- Whether the braces hug what they hold.  With comments attached to it they do not. -/
def isInline (ancestors : Ancestors) : Container → Bool
  | empty _ => true
  | filled (.foreign e) =>
    e.comments.isEmpty && e.form.isHugged (ancestors.head?.any Parent.isMarkup)
  | filled (.markup ..) => false

end Container

namespace Brace

/-- Braces that **hug** what they hold; a line comment at its end still gets its line. -/
def hugging (inside : Doc) : Doc :=
  .grouped (.concat [.text "\x7b", inside, .suffixBoundary, .text "\x7d"])

/-- Braces on lines of their own if they break. -/
def apart (inside : Doc) : Doc :=
  .grouped (.concat
    [.text "\x7b", .indent (Doc.line .orNil ++ inside), .line .orNil, .suffixBoundary,
      .text "\x7d"])

/-- `{...}` around what is spread. -/
def spread (inside : Doc) : Doc := .concat [.text "\x7b", inside, .text "\x7d"]

/-- The inside of `{...}` if its comments are printed around it. -/
def commented (inside : Doc) : Doc :=
  .concat [.indent (Doc.line .orNil ++ inside), .line .orNil]

/-- Comments alone between braces; a line comment needs a line break before the brace. -/
def onlyComments (ownLines : Bool) (inside : Doc) : Doc :=
  if ownLines then inside ++ Doc.line .hard else inside

end Brace

/-! ## Parentheses -/

/-- The parents that never put **parentheses** around markup. -/
def Parent.suppressesParens : Parent → Bool
  | arrayExpression | jsxAttribute | jsxElement | jsxExpressionContainer | jsxFragment
  | expressionStatement | callExpression | optionalCallExpression | conditionalExpression
  | expressionRoot => true
  | arrowFunctionExpression | assignmentExpression | binaryExpression | jsxSpreadAttribute
  | jsxSpreadChild | logicalExpression | returnStatement | variableDeclarator | other => false

namespace Parens

/-- The body of an arrow function that is the argument of a call in braces, as in
`{items.map(item => <li />)}`: it always breaks. -/
def alwaysBreaks : Ancestors → Bool
  | .arrowFunctionExpression :: .callExpression :: .jsxExpressionContainer :: _
  | .arrowFunctionExpression :: .optionalCallExpression :: .jsxExpressionContainer :: _ => true
  | _ => false

/-- Markup on lines of its own if it breaks, **in parentheses** unless they are there already. -/
def around (alreadyThere shouldBreak : Bool) (markup : Doc) : Doc :=
  let paren (s : String) : Doc :=
    if alreadyThere then .nil else .flatOrBroken .nil (.text s)
  .group shouldBreak <| .concat
    [paren "(", .indent (Doc.line .orNil ++ markup), .line .orNil, paren ")"]

end Parens

end Reflow
