import Reflow.Syntax.Tree

/-!
# Proofs/Syntax/Places — where a tree may hold nothing

Names and expressions always print something.  Three places of a tree need not: between the brackets
of a fragment's tag, between two tags, and in place of an expression there may be nothing at all, or
comments only.  Nor is there anything between the comments of markup that is spread and the lines
that its parentheses put around it, if the parentheses themselves are there already.
-/

namespace Reflow

/-- A **place that may hold nothing**. -/
inductive Place where
  /-- Between the brackets of a tag without a name. -/
  | fragmentTag (comments : List Comment)
  /-- The inside of braces, printed without them. -/
  | lone (comments : List Comment)
  /-- Between two tags, of which the second one may be missing. -/
  | body (isElement isClosed : Bool) (children : List Node)
  /-- Between markup that is spread and its comments. -/
  | spread (comments : List Comment)

/-- The place between the tags of markup. -/
def Markup.ownBody : Markup → Place
  | .element _ closing children _ => .body true closing.isSome children
  | .fragment _ _ children _ => .body false true children

/-- The place around an expression **that is spread**. -/
def Expression.spreadPlaces : Expression → List Place
  | .foreign _ => []
  | .markup _ _ comments => [.spread comments]

mutual

def Expression.places : Expression → List Place
  | .foreign _ => []
  | .markup node _ _ => node.places

def Container.places : Container → List Place
  | .empty _ => []
  | .filled expression => expression.places

def AttributeValue.places : AttributeValue → List Place
  | .string _ => []
  | .container container => container.places
  | .markup markup => markup.ownBody :: markup.innerPlaces

def Attribute.places : Attribute → List Place
  | .bare _ _ => []
  | .valued _ value _ => value.places
  | .spread argument _ => argument.spreadPlaces ++ argument.places

def Attribute.allPlaces : List Attribute → List Place
  | [] => []
  | first :: others => first.places ++ Attribute.allPlaces others

/-- A name always prints something, so the places of a tag are **those in its attributes**. -/
def OpeningTag.places : OpeningTag → List Place
  | ⟨_, _, attributes, _⟩ => Attribute.allPlaces attributes

/-- The places **in the tags and the children** of markup. -/
def Markup.innerPlaces : Markup → List Place
  | .element tag _ children _ => tag.places ++ Node.allPlaces children
  | .fragment opening closing children _ =>
    .fragmentTag opening :: .fragmentTag closing :: Node.allPlaces children

/-- The places of a node that **may hold nothing**, at every depth. -/
def Node.places : Node → List Place
  | .text _ | .closingTag _ => []
  | .markup markup => markup.ownBody :: markup.innerPlaces
  | .container container => container.places
  | .spreadChild expression => expression.spreadPlaces ++ expression.places
  | .attr item => item.places
  | .openingTag tag => tag.places
  | .openingFragment comments | .closingFragment comments => [.fragmentTag comments]
  | .emptyExpression comments => [.lone comments]

def Node.allPlaces : List Node → List Place
  | [] => []
  | first :: others => first.places ++ Node.allPlaces others

end

end Reflow
