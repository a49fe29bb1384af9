import Reflow.Markup.Document

/-!
# Proofs/Syntax/Written — what a tree is printed with, as it is written

Names and type arguments, the strings of attributes, expressions and comments are printed as they
are written, the strings up to their quotes.  Text between two tags is not among them, for it is
printed word by word; text that is used as an expression is.  Everything else between two tags, at
any depth, is a descendant of the node.
-/

namespace Reflow

/-- A text and its comments. -/
def Verbatim.written (text : Verbatim) : List String := text.raw :: text.comments.map Comment.raw

/-- A text that may be missing. -/
def Verbatim.optionalWritten : Option Verbatim → List String
  | some text => text.written
  | none => []

mutual

def Expression.written : Expression → List String
  | .foreign e => e.raw :: e.comments.map Comment.raw
  | .markup node _ comments => node.written ++ comments.map Comment.raw

def Container.written : Container → List String
  | .empty comments => comments.map Comment.raw
  | .filled expression => expression.written

/-- What is written in a value.  The string of an attribute **includes its quotes**. -/
def AttributeValue.written : AttributeValue → List String
  | .string raw => [raw]
  | .container container => container.written
  | .markup markup => markup.written

def Attribute.written : Attribute → List String
  | .bare name comments => name.written ++ comments.map Comment.raw
  | .valued name value comments => name.written ++ (value.written ++ comments.map Comment.raw)
  | .spread argument comments => argument.written ++ comments.map Comment.raw

def Attribute.allWritten : List Attribute → List String
  | [] => []
  | first :: others => first.written ++ Attribute.allWritten others

/-- What is written in an opening tag: its name, its type arguments **and its attributes**. -/
def OpeningTag.written : OpeningTag → List String
  | ⟨name, typeArguments, attributes, _⟩ =>
    name.written ++ (Verbatim.optionalWritten typeArguments ++ Attribute.allWritten attributes)

def Markup.written : Markup → List String
  | .element tag closing children comments =>
    tag.written ++ (Verbatim.optionalWritten closing ++
      (Node.allWritten children ++ comments.map Comment.raw))
  | .fragment opening closing children comments =>
    opening.map Comment.raw ++ (closing.map Comment.raw ++
      (Node.allWritten children ++ comments.map Comment.raw))

/-- All that is printed of a node **as it is written**. -/
def Node.written : Node → List String
  | .text raw => [raw]
  | .markup markup => markup.written
  | .container container => container.written
  | .spreadChild expression => expression.written
  | .attr item => item.written
  | .openingTag tag => tag.written
  | .closingTag name => name.written
  | .openingFragment comments | .closingFragment comments | .emptyExpression comments =>
    comments.map Comment.raw

/-- Of children, but for those that are text to their neighbours. -/
def Node.allWritten : List Node → List String
  | [] => []
  | first :: others =>
    (match first.asText? with
      | some _ => []
      | none => first.written) ++ Node.allWritten others

end

mutual

def Expression.descendants : Expression → List Node
  | .foreign _ => []
  | .markup node _ _ => node.descendants

def Container.descendants : Container → List Node
  | .empty _ => []
  | .filled expression => expression.descendants

def AttributeValue.descendants : AttributeValue → List Node
  | .string _ => []
  | .container container => container.descendants
  | .markup markup => markup.descendants

/-- An attribute has nodes between tags in it only where **its value or argument** has. -/
def Attribute.descendants : Attribute → List Node
  | .bare _ _ => []
  | .valued _ value _ => value.descendants
  | .spread argument _ => argument.descendants

def Attribute.allDescendants : List Attribute → List Node
  | [] => []
  | first :: others => first.descendants ++ Attribute.allDescendants others

def OpeningTag.descendants : OpeningTag → List Node
  | ⟨_, _, attributes, _⟩ => Attribute.allDescendants attributes

/-- All nodes between the tags of an element, **at any depth**, and those in its attributes. -/
def Markup.descendants : Markup → List Node
  | .element tag _ children _ => tag.descendants ++ Node.allDescendants children
  | .fragment _ _ children _ => Node.allDescendants children

/-- The **children** that stand between the tags of a node, and between those of its children. -/
def Node.descendants : Node → List Node
  | .markup markup => markup.descendants
  | .container container => container.descendants
  | .spreadChild expression => expression.descendants
  | .attr item => item.descendants
  | .openingTag tag => tag.descendants
  | .text _ | .closingTag _ | .openingFragment _ | .closingFragment _ | .emptyExpression _ => []

/-- Children, but for those that are text to their neighbours, with what stands in them. -/
def Node.allDescendants : List Node → List Node
  | [] => []
  | first :: others =>
    (match first.asText? with
      | some _ => []
      | none => first :: first.descendants) ++ Node.allDescendants others

end

end Reflow
