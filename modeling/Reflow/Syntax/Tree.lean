import Reflow.Syntax.Comment

/-!
# Syntax/Tree — markup trees

The tree of an element or a fragment as it was written.  What is not markup is opaque: a
**foreign expression** is known by its form and its text only, and a host prints it.
-/

namespace Reflow

/-- Text that is printed as it is written, with the comments attached to it: a name, or the type
arguments of a tag with their brackets. -/
structure Verbatim where
  raw : String
  comments : List Comment := []
  deriving DecidableEq, Repr

/-- The form of a foreign expression, as far as its layout depends on it. -/
inductive ExpressionForm where
  | array
  | arrowFunction
  | binary
  | call
  | conditional
  | doBlock
  | function
  | logical
  | object
  | optionalCall
  /-- A string literal, with its value. -/
  | stringLiteral (value : String)
  | taggedTemplate
  | templateLiteral
  | other
  deriving DecidableEq, Repr

/-- An expression that is not markup. -/
structure ForeignExpression where
  form : ExpressionForm
  /-- The text as it was written, which stands in when the host fails. -/
  raw : String
  comments : List Comment := []
  deriving DecidableEq, Repr

mutual

inductive Expression where
  | foreign (e : ForeignExpression)
  /-- Markup used as an expression, as in `a={<b />}`. -/
  | markup (node : Node) (raw : String) (comments : List Comment)

/-- Braces around an expression, or around nothing but comments. -/
inductive Container where
  | empty (comments : List Comment)
  | filled (expression : Expression)

inductive AttributeValue where
  /-- A string as it is written, quotes included. -/
  | string (raw : String)
  | container (value : Container)
  | markup (value : Markup)

inductive Attribute where
  /-- A name alone. -/
  | bare (name : Verbatim) (comments : List Comment)
  | valued (name : Verbatim) (value : AttributeValue) (comments : List Comment)
  /-- `{...argument}`. -/
  | spread (argument : Expression) (comments : List Comment)

structure OpeningTag where
  name : Verbatim
  typeArguments : Option Verbatim
  attributes : List Attribute
  selfClosing : Bool

inductive Markup where
  /-- An element, **unclosed** if it has no closing tag. -/
  | element (opening : OpeningTag) (closing : Option Verbatim) (children : List Node)
      (comments : List Comment)
  /-- Children between `<>` and `</>`, which hold nothing but comments. -/
  | fragment (opening closing : List Comment) (children : List Node) (comments : List Comment)

/-- Anything that can be printed by itself or stand between two tags. -/
inductive Node where
  | text (raw : String)
  | markup (markup : Markup)
  | container (container : Container)
  /-- `{...expression}` as a child. -/
  | spreadChild (expression : Expression)
  | attr (item : Attribute)
  | openingTag (tag : OpeningTag)
  | closingTag (name : Verbatim)
  | openingFragment (comments : List Comment)
  | closingFragment (comments : List Comment)
  /-- The inside of braces that hold nothing but comments. -/
  | emptyExpression (comments : List Comment)

end

/-- The syntactic parents that printing tells apart. -/
inductive Parent where
  | arrayExpression
  | arrowFunctionExpression
  | assignmentExpression
  | binaryExpression
  | callExpression
  | conditionalExpression
  | expressionRoot
  | expressionStatement
  | jsxAttribute
  | jsxElement
  | jsxExpressionContainer
  | jsxFragment
  | jsxSpreadAttribute
  | jsxSpreadChild
  | logicalExpression
  | optionalCallExpression
  | returnStatement
  | variableDeclarator
  | other
  deriving DecidableEq, Repr

/-- The parents of a node, nearest first. -/
abbrev Ancestors := List Parent

namespace Expression

/-- The comments attached to an expression. -/
def comments : Expression → List Comment
  | foreign e => e.comments
  | markup _ _ comments => comments

/-- The text of an expression as it was written. -/
def raw : Expression → String
  | foreign e => e.raw
  | markup _ raw _ => raw

end Expression

namespace Container

/-- A **space spelled out**: the string of one space in braces, without comments. -/
def isSpelledSpace : Container → Bool
  | filled (.foreign ⟨.stringLiteral " ", _, []⟩) => true
  | _ => false

/-- A template, which keeps the layout it is written in. -/
def isTemplate : Container → Bool
  | filled (.foreign e) => e.form == .taggedTemplate || e.form == .templateLiteral
  | _ => false

end Container

namespace Attribute

/-- The comments attached to an attribute as a whole. -/
def comments : Attribute → List Comment
  | bare _ comments | valued _ _ comments | spread _ comments => comments

/-- A string that spans lines. -/
def isMultilineString : Attribute → Bool
  | valued _ (.string raw) _ => raw.toList.contains '\n'
  | _ => false

/-- A string on one line, without comments on the attribute. -/
def isPlainString : Attribute → Bool
  | valued _ (.string raw) [] => !raw.toList.contains '\n'
  | _ => false

end Attribute

namespace OpeningTag

/-- Whether comments are attached to the name or to the type arguments. -/
def nameHasComments (tag : OpeningTag) : Bool :=
  !tag.name.comments.isEmpty || tag.typeArguments.any fun arguments => !arguments.comments.isEmpty

end OpeningTag

namespace Markup

/-- Whether the closing tag is there; a fragment always has one. -/
def isClosed : Markup → Bool
  | element _ closing _ _ => closing.isSome
  | fragment .. => true

end Markup

end Reflow
