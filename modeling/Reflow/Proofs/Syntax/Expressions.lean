import Reflow.Syntax.Tree

/-!
# Proofs/Syntax/Expressions — the expressions of a tree and the paths to them

The expressions of a tree in source order, markup used as an expression and what is in it included,
each **under its path**: the syntactic parents that enclose it, nearest first, and then those of the
tree itself.  This is what a reader of the source would write down; nothing is printed here.
-/

namespace Reflow

/-- A node that is a **space spelled out**. -/
def Node.isSpelledSpace : Node → Bool
  | container braces => braces.isSpelledSpace
  | _ => false

mutual

/-- The expressions of an expression, **itself first**. -/
def Expression.expressions (path : Ancestors) : Expression → List (Expression × Ancestors)
  | .foreign e => [(.foreign e, path)]
  | .markup node raw comments => (.markup node raw comments, path) :: node.expressions path

def Container.expressions (path : Ancestors) : Container → List (Expression × Ancestors)
  | .empty _ => []
  | .filled expression => expression.expressions (.jsxExpressionContainer :: path)

def AttributeValue.expressions (path : Ancestors) :
    AttributeValue → List (Expression × Ancestors)
  | .string _ => []
  | .container container => container.expressions path
  | .markup markup => markup.expressions path

def Attribute.expressions (path : Ancestors) : Attribute → List (Expression × Ancestors)
  | .bare .. => []
  | .valued _ value _ => value.expressions (.jsxAttribute :: path)
  | .spread argument _ => argument.expressions (.jsxSpreadAttribute :: path)

def Attribute.allExpressions (path : Ancestors) : List Attribute → List (Expression × Ancestors)
  | [] => []
  | first :: others => first.expressions path ++ Attribute.allExpressions path others

def OpeningTag.expressions (path : Ancestors) : OpeningTag → List (Expression × Ancestors)
  | ⟨_, _, attributes, _⟩ => Attribute.allExpressions path attributes

/-- The opening tag of an element is **inside the element**. -/
def Markup.expressions (path : Ancestors) : Markup → List (Expression × Ancestors)
  | .element tag _ children _ =>
    tag.expressions (.jsxElement :: path) ++ Node.allExpressions (.jsxElement :: path) children
  | .fragment _ _ children _ => Node.allExpressions (.jsxFragment :: path) children

/-- The **expressions of a node** in source order, each under its path. -/
def Node.expressions (path : Ancestors) : Node → List (Expression × Ancestors)
  | .text _ => []
  | .markup markup => markup.expressions path
  | .container container => container.expressions path
  | .spreadChild expression => expression.expressions (.jsxSpreadChild :: path)
  | .attr item => item.expressions path
  | .openingTag tag => tag.expressions path
  | .closingTag _ | .openingFragment _ | .closingFragment _ | .emptyExpression _ => []

/-- The expressions of the children of an element or a fragment.  A space spelled out
among them is text. -/
def Node.allExpressions (path : Ancestors) : List Node → List (Expression × Ancestors)
  | [] => []
  | first :: others =>
    (if first.isSpelledSpace then [] else first.expressions path) ++
      Node.allExpressions path others

end

/-- An expression under its path that is **no markup**. -/
def Expression.foreign? : Expression × Ancestors → Option (ForeignExpression × Ancestors)
  | (foreign e, path) => some (e, path)
  | (markup .., _) => none

/-- The **foreign expressions of a node** in source order, each under its path. -/
def Node.foreignExpressions (path : Ancestors) (node : Node) :
    List (ForeignExpression × Ancestors) :=
  (node.expressions path).filterMap Expression.foreign?

end Reflow
