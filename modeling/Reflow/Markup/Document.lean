import Reflow.Host.Dialogue
import Reflow.Markup.Tag
import Reflow.Markup.Body

/-!
# Markup/Document — the document of a tree

Each node is a dialogue that ends with its document.  What is asked follows the tags: the opening
tag, the closing tag, the children, and then what surrounds the whole; a foreign expression is asked
for with the syntactic path that leads to it.
-/

namespace Reflow

open Dialogue

/-- Text as it is written, with its comments. -/
def Verbatim.document (text : Verbatim) : Dialogue Doc :=
  question (.comments text.comments (.text text.raw))

/-- Type arguments, if there are any. -/
def Verbatim.optionalDocument : Option Verbatim → Dialogue Doc
  | some text => text.document
  | none => pure .nil

namespace Tag

/-- The closing tag of an element. -/
def closingDocument (name : Verbatim) : Dialogue Doc := do
  return closing (← name.document)

/-- The opening tag of a fragment. -/
def openingFragmentDocument (comments : List Comment) : Dialogue Doc := do
  return openingFragment comments (← question (.dangling comments true))

/-- The closing tag of a fragment. -/
def closingFragmentDocument (comments : List Comment) : Dialogue Doc := do
  return closingFragment comments (← question (.dangling comments true))

end Tag

namespace Brace

/-- The inside of braces that hold nothing but comments. -/
def emptyDocument (comments : List Comment) : Dialogue Doc := do
  let ownLines := comments.any Comment.isLine
  return onlyComments ownLines (← question (.dangling comments !ownLines))

/-- Braces around what is spread: comments of the argument are printed around it unless the host
prints them with the argument. -/
def spreadDocument (argument : Expression) (printed : Doc) : Dialogue Doc := do
  let inside := Doc.text "..." ++ printed
  if argument.comments.isEmpty then return spread inside
  else if ← question (.ownComments argument) then return spread inside
  else return spread (commented (← question (.comments argument.comments inside)))

end Brace

namespace Parens

/-- Markup in the parentheses its parent calls for. -/
def document (ancestors : Ancestors) (markup : Doc) : Dialogue Doc :=
  match ancestors with
  | [] => pure markup
  | parent :: _ =>
    if parent.suppressesParens then pure markup
    else do
      let alreadyThere ← question (.parens ancestors)
      return around alreadyThere (alwaysBreaks ancestors) markup

end Parens

/-- Braces, inline or apart. -/
def Container.braces (container : Container) (ancestors : Ancestors) (inside : Doc) : Doc :=
  if container.isInline ancestors then Brace.hugging inside else Brace.apart inside

namespace Shell

/-- An element without its children, given its tags.  The tag `fbt` marks localized text. -/
def ofElement (tag : OpeningTag) (opening : Doc) (closing : Option Doc) : Shell :=
  { opening, closing, isElement := true, isLocalized := tag.name.raw == "fbt",
    hasManyAttributes := 1 < tag.attributes.length }

/-- A fragment without its children, given its tags. -/
def ofFragment (opening closing : Doc) : Shell :=
  { opening, closing := some closing, isElement := false, isLocalized := false,
    hasManyAttributes := false }

end Shell

namespace Markup

/-- The closing tag of an element, if it has one. -/
def closingDocument : Option Verbatim → Dialogue (Option Doc)
  | some name => do return some (← Tag.closingDocument name)
  | none => pure none

/-- Markup with its comments and in its parentheses. -/
def surrounded (ancestors : Ancestors) (comments : List Comment) (doc : Doc) : Dialogue Doc := do
  let commented ← question (.comments comments doc)
  Parens.document ancestors commented

end Markup

namespace Node

/-- A node that is **text to its neighbours**: text, or a space spelled out, which is the text it
stands for. -/
def asText? : Node → Option String
  | text raw => some raw
  | container braces => if braces.isSpelledSpace then some " " else none
  | _ => none

/-- What any other node is to its neighbours. -/
def childKind : Node → ChildKind
  | markup tagged => .markup tagged.isClosed
  | container braces => .container braces.isTemplate
  | _ => .other

end Node

mutual

/-- The document of an expression. -/
def Expression.document (o : LanguageOptions) (ancestors : Ancestors) :
    Expression → Dialogue Doc
  | .foreign e => question (.expression e ancestors)
  | .markup node _ comments => do
    let doc ← node.document o ancestors false
    question (.comments comments doc)

/-- The document of braces. -/
def Container.document (o : LanguageOptions) (ancestors : Ancestors) :
    Container → Dialogue Doc
  | .empty comments => do
    let inside ← Brace.emptyDocument comments
    return Container.braces (.empty comments) ancestors inside
  | .filled expression => do
    let inside ← expression.document o (.jsxExpressionContainer :: ancestors)
    return Container.braces (.filled expression) ancestors inside

/-- The document of the value of an attribute, whose string is written with its quotes
normalized. -/
def AttributeValue.document (o : LanguageOptions) (ancestors : Ancestors) :
    AttributeValue → Dialogue Doc
  | .string raw => pure (.text (AttributeString.normalize o.jsxQuotes raw))
  | .container container => container.document o ancestors
  | .markup markup => markup.document o ancestors false

/-- The document of an attribute. -/
def Attribute.document (o : LanguageOptions) (ancestors : Ancestors) :
    Attribute → Dialogue Doc
  | .bare name comments => do
    let name ← name.document
    question (.comments comments (.concat [name]))
  | .valued name value comments => do
    let name ← name.document
    let value ← value.document o (.jsxAttribute :: ancestors)
    question (.comments comments (Tag.valued name value))
  | .spread argument comments => do
    let printed ← argument.document o (.jsxSpreadAttribute :: ancestors)
    let doc ← Brace.spreadDocument argument printed
    question (.comments comments doc)

/-- The documents of attributes, in order. -/
def Attribute.documents (o : LanguageOptions) (ancestors : Ancestors) :
    List Attribute → Dialogue (List Doc)
  | [] => pure []
  | first :: others => do
    let doc ← first.document o ancestors
    let docs ← Attribute.documents o ancestors others
    return doc :: docs

/-- The document of an opening tag. -/
def OpeningTag.document (o : LanguageOptions) (ancestors : Ancestors) :
    OpeningTag → Dialogue Doc
  | ⟨name, typeArguments, attributes, selfClosing⟩ => do
    let nameDoc ← name.document
    let argumentsDoc ← Verbatim.optionalDocument typeArguments
    let docs ← Attribute.documents o ancestors attributes
    return OpeningTag.doc o ⟨name, typeArguments, attributes, selfClosing⟩ nameDoc argumentsDoc docs

/-- The **document of an element or a fragment**; embedded, of its children alone. -/
def Markup.document (o : LanguageOptions) (ancestors : Ancestors) (isEmbedded : Bool) :
    Markup → Dialogue Doc
  | .element tag closing children comments => do
    let opening ← tag.document o (.jsxElement :: ancestors)
    let closing ← Markup.closingDocument closing
    let inside ← Node.children o (.jsxElement :: ancestors) children
    Markup.surrounded ancestors comments
      ((Shell.ofElement tag opening closing).doc o isEmbedded inside)
  | .fragment openingComments closingComments children comments => do
    let opening ← Tag.openingFragmentDocument openingComments
    let closing ← Tag.closingFragmentDocument closingComments
    let inside ← Node.children o (.jsxFragment :: ancestors) children
    Markup.surrounded ancestors comments
      ((Shell.ofFragment opening closing).doc o isEmbedded inside)

/-- The **document of a node** under its ancestors. -/
def Node.document (o : LanguageOptions) (ancestors : Ancestors) (isEmbedded : Bool) :
    Node → Dialogue Doc
  | .text raw => pure (.text raw)
  | .markup markup => markup.document o ancestors isEmbedded
  | .container container => container.document o ancestors
  | .spreadChild expression => do
    let printed ← expression.document o (.jsxSpreadChild :: ancestors)
    Brace.spreadDocument expression printed
  | .attr item => item.document o ancestors
  | .openingTag tag => tag.document o ancestors
  | .closingTag name => Tag.closingDocument name
  | .openingFragment comments => Tag.openingFragmentDocument comments
  | .closingFragment comments => Tag.closingFragmentDocument comments
  | .emptyExpression comments => Brace.emptyDocument comments

/-- The **children** of an element or a fragment, in order. -/
def Node.children (o : LanguageOptions) (ancestors : Ancestors) :
    List Node → Dialogue (List Child)
  | [] => pure []
  | first :: others => do
    let child ← match first.asText? with
      | some raw => pure (Child.text raw)
      | none => Child.printed first.childKind <$> first.document o ancestors false
    let children ← Node.children o ancestors others
    return child :: children

end

end Reflow
