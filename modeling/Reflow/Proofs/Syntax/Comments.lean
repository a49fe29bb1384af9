import Reflow.Proofs.Syntax.Expressions

/-!
# Proofs/Syntax/Comments — the comments of a tree

All comments attached to anything in a tree: to names and type arguments, attributes, elements and
fragments, expressions of both kinds, and to the places that hold nothing else.
-/

namespace Reflow

/-- The comments of text that may be missing. -/
def Verbatim.optionalComments : Option Verbatim → List Comment
  | some text => text.comments
  | none => []

mutual

/-- The comments of an expression; those of markup before the comments **in the markup**. -/
def Expression.allComments : Expression → List Comment
  | .foreign e => e.comments
  | .markup node _ comments => comments ++ node.allComments

def Container.allComments : Container → List Comment
  | .empty comments => comments
  | .filled expression => expression.allComments

def AttributeValue.allComments : AttributeValue → List Comment
  | .string _ => []
  | .container container => container.allComments
  | .markup markup => markup.allComments

/-- The comments of an attribute: on its name, **in its value**, and around it. -/
def Attribute.allComments : Attribute → List Comment
  | .bare name comments => name.comments ++ comments
  | .valued name value comments => name.comments ++ value.allComments ++ comments
  | .spread argument comments => argument.allComments ++ comments

def Attribute.commentsOfAll : List Attribute → List Comment
  | [] => []
  | first :: others => first.allComments ++ Attribute.commentsOfAll others

def OpeningTag.allComments : OpeningTag → List Comment
  | ⟨name, typeArguments, attributes, _⟩ =>
    name.comments ++ Verbatim.optionalComments typeArguments ++ Attribute.commentsOfAll attributes

/-- The comments of markup: of the opening tag, the children and the closing tag, and then those
**around all of it**. -/
def Markup.allComments : Markup → List Comment
  | .element tag closing children comments =>
    tag.allComments ++ Node.commentsOfAll children ++ Verbatim.optionalComments closing ++ comments
  | .fragment opening closing children comments =>
    opening ++ Node.commentsOfAll children ++ closing ++ comments

/-- **All comments of a node**. -/
def Node.allComments : Node → List Comment
  | .text _ => []
  | .markup markup => markup.allComments
  | .container container => container.allComments
  | .spreadChild expression => expression.allComments
  | .attr item => item.allComments
  | .openingTag tag => tag.allComments
  | .closingTag name => name.comments
  | .openingFragment comments | .closingFragment comments | .emptyExpression comments => comments

def Node.commentsOfAll : List Node → List Comment
  | [] => []
  | first :: others => first.allComments ++ Node.commentsOfAll others

end

end Reflow
