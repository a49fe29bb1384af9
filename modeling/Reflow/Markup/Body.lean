import Reflow.Markup.Part
import Reflow.Options.Basic

/-!
# Markup/Body — an element around its children

The children are laid out twice: flat, for the line the whole element may fit on, and for lines of
their own between the tags.  In the second form a space that matters may have no text to stand
beside; it is then **spelled out** as a string in braces.
-/

namespace Reflow

/-- How a space that matters is printed. -/
structure SpaceStyle where
  /-- The space spelled out. -/
  spelled : String
  /-- The space as a separator. -/
  doc : Doc

namespace SpaceStyle

/-- In markup a space is **plain on a line** and spelled out where the line breaks. -/
def inMarkup (o : LanguageOptions) : SpaceStyle :=
  let spelled := String.ofList ['{', o.quotes.char, ' ', o.quotes.char, '}']
  ⟨spelled, .flatOrBroken (.text " ") (Doc.text spelled ++ Doc.line .orNil)⟩

/-- In an embedded block a space is a space. -/
def embedded : SpaceStyle := ⟨" ", .text " "⟩

/-- The style of a body. -/
def of (o : LanguageOptions) (isEmbedded : Bool) : SpaceStyle :=
  if isEmbedded then embedded else inMarkup o

end SpaceStyle

namespace Part

/-- The **space before something** on lines of its own, by the two parts before it and whether it is
the last: spelled out at the edges and after a line break, where a plain space would be lost. -/
def spelledSpace (style : SpaceStyle) (beforeThat before : Option Part) (isLast : Bool) :
    Option Doc :=
  match beforeThat, before, isLast with
  | none, some .empty, true => some (.text style.spelled)
  | none, some .empty, false => some (Doc.text style.spelled ++ Doc.line .hard)
  | _, _, true => some (.text style.spelled)
  | some (.line .hard), some .empty, false => some (.text style.spelled)
  | _, _, false => none

/-- A part on lines of its own, and whether it forces the element to break.  A space that is spelled
out forces nothing. -/
def multilineDoc (style : SpaceStyle) (beforeThat before : Option Part) (part : Part)
    (isLast : Bool) : Doc × Bool :=
  let plain := part.doc style.doc
  match part with
  | .space =>
    match spelledSpace style beforeThat before isLast with
    | some doc => (doc, false)
    | none => (plain, plain.willBreak)
  | _ => (plain, plain.willBreak)

/-- The parts **on lines of their own**, after the two parts before them. -/
def multilineDocsAfter (style : SpaceStyle) (beforeThat before : Option Part) :
    List Part → List (Doc × Bool)
  | [] => []
  | part :: rest =>
    multilineDoc style beforeThat before part rest.isEmpty ::
      multilineDocsAfter style before (some part) rest

def multilineDocs (style : SpaceStyle) (parts : List Part) : List (Doc × Bool) :=
  multilineDocsAfter style none none parts

/-- The parts **on one line**. -/
def flatDoc (style : SpaceStyle) (parts : List Part) : Doc :=
  .concat (parts.map (doc style.doc))

end Part

/-- An element or a fragment without its children. -/
structure Shell where
  opening : Doc
  /-- Nothing for an element without a closing tag. -/
  closing : Option Doc
  isElement : Bool
  /-- Localized text, in which no whitespace may appear or disappear. -/
  isLocalized : Bool
  hasManyAttributes : Bool

namespace Shell

/-- The closing tag, or nothing in its place. -/
def closingDoc (shell : Shell) : Doc := shell.closing.getD .nil

/-- Whether the children must go on **lines of their own**, whatever the width. -/
def mustBreak (shell : Shell) (children : List Child) (lines : List (Doc × Bool)) : Bool :=
  shell.opening.willBreak || children.any Child.isMarkup || shell.hasManyAttributes ||
    1 < children.countP Child.isContainer || lines.any Prod.snd

/-- The children on lines of their own: wrapped like words if there is text among them, and
otherwise one a line. -/
def content (hasText : Bool) (lines : List (Doc × Bool)) : Doc :=
  let docs := lines.map Prod.fst
  if hasText then .filled docs else .group true (.concat docs)

/-- The whole on lines of its own. -/
def multiline (shell : Shell) (content : Doc) : Doc :=
  .grouped (.concat
    [shell.opening, .indent (Doc.line .hard ++ content), .line .hard, shell.closingDoc])

/-- The whole on one line. -/
def onOneLine (shell : Shell) (flat : Doc) : Doc :=
  .grouped (.concat [shell.opening, flat, shell.closingDoc])

/-- A shell **around its children**, on one line if it may be and fits; of an embedded block the
children alone. -/
def around (o : LanguageOptions) (isEmbedded : Bool) (shell : Shell)
    (children : List Child) : Doc :=
  let style := SpaceStyle.of o isEmbedded
  let hasText := children.any Child.isMeaningfulText
  let parts := Part.arrange shell.isLocalized hasText children
  let lines := Part.multilineDocs style parts
  let content := content hasText lines
  if isEmbedded then content
  else if shell.mustBreak children lines then shell.multiline content
  else .conditional [shell.onOneLine (Part.flatDoc style parts), shell.multiline content]

/-- An element **without content** is its two tags, without anything to break between them. -/
def empty (shell : Shell) : Doc :=
  match shell.closing with
  | some closing => shell.opening ++ closing
  | none => shell.opening

/-- A shell with its children.  A template is left in its own layout, right between the tags. -/
def doc (o : LanguageOptions) (isEmbedded : Bool) (shell : Shell) (children : List Child) : Doc :=
  if shell.isElement && Child.noContent children then shell.empty
  else
    match children with
    | [.printed (.container true) template] =>
      .concat [shell.opening, template, shell.closingDoc]
    | children => shell.around o isEmbedded children

end Shell

end Reflow
