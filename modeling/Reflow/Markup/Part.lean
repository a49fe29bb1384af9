import Reflow.Text.Whitespace
import Reflow.Doc.Basic

/-!
# Markup/Part — children as words and separators

Markup reads a line break in text as nothing or as one space, so the children of an element are
written down as **parts**: contents (words and printed children) and, between them, separators that
say what may be put there.  `Part.ofChildren` makes them from the children one by one, which leaves
separators next to each other; `Part.merge` joins those, and `Part.trim` drops what stands at the
two ends.
-/

namespace Reflow

/-! ## Children -/

/-- What a printed child is, as far as its neighbours care. -/
inductive ChildKind where
  /-- An element or a fragment; an element may lack its closing tag. -/
  | markup (closed : Bool)
  /-- Braces, possibly around a template. -/
  | container (template : Bool)
  | other
  deriving DecidableEq, Repr

/-- A **child**: text as it is written, or anything else with its document. -/
inductive Child where
  | text (raw : String)
  | printed (kind : ChildKind) (doc : Doc)

namespace Child

/-- An element without a closing tag. -/
def isUnclosed : Child → Bool
  | printed (.markup false) _ => true
  | _ => false

def isMarkup : Child → Bool
  | printed (.markup _) _ => true
  | _ => false

def isContainer : Child → Bool
  | printed (.container _) _ => true
  | _ => false

/-- Text that counts as content. -/
def isMeaningfulText : Child → Bool
  | text raw => Text.isMeaningful raw
  | printed .. => false

/-- Whether there is **nothing between the tags**: no child, or one text that does not count. -/
def noContent : List Child → Bool
  | [] => true
  | [text raw] => !Text.isMeaningful raw
  | _ => false

end Child

/-! ## Parts -/

/-- A **part** of the children. -/
inductive Part where
  /-- No content, where one has to stand. -/
  | empty
  | word (s : String)
  /-- A space that matters: plain on a line, spelled out where the line breaks. -/
  | space
  | line (kind : LineKind)
  | printed (doc : Doc)

namespace Part

def isLineOrEmpty : Part → Bool
  | line _ | empty => true
  | word _ | space | printed _ => false

/-- The document of a part, given that of a space that matters. -/
def doc (space : Doc) : Part → Doc
  | .empty => .text ""
  | .word s => .text s
  | .space => space
  | .line kind => .line kind
  | .printed doc => doc

/-! ## From children -/

/-- Whether a word is a single character beside an element without closing tag: such a character is
moved to a line of its own. -/
def standsAlone (word : String) (child : Child) (next : Option Child) : Bool :=
  word.length == 1 && (child.isUnclosed || next.any Child.isUnclosed)

/-- The separator of two children with **nothing between** them.  In localized text nothing may come
between them either. -/
def separatorWithout (localized : Bool) (word : String) (child : Child)
    (next : Option Child) : Part :=
  if localized then .empty
  else if standsAlone word child next then .line .hard
  else .line .orNil

/-- The separator that stands for **whitespace with a line break**. -/
def separatorForBreak (localized : Bool) (word : String) (child : Child)
    (next : Option Child) : Part :=
  if localized then .line .hard
  else if word.length == 1 then
    if standsAlone word child next then .line .hard else .line .orNil
  else .line .hard

/-- The separator after a child that is not text. -/
def separatorAfter (localized : Bool) (child : Child) (next : Option Child) : Part :=
  match next with
  | some (.text raw) =>
    if Text.isMeaningful raw then
      separatorWithout localized (Text.firstWord raw) child next
    else .line .hard
  | _ => .line .hard

/-- The parts before the first word of a text. -/
def ofLeading (localized : Bool) (firstWord : String) (child : Child) (next : Option Child) :
    Option Whitespace → List Part
  | none => []
  | some .space => [.empty, .space]
  | some .lineBreak | some .blankLine =>
    [.empty, separatorForBreak localized firstWord child next]

/-- The separator after the last word of a text. -/
def ofTrailing (localized : Bool) (lastWord : String) (child : Child) (next : Option Child) :
    Option Whitespace → Part
  | none => separatorWithout localized lastWord child next
  | some .space => .space
  | some .lineBreak | some .blankLine => separatorForBreak localized lastWord child next

/-- The parts of a text.  Blanks with one line break leave no trace, and of several line breaks one
empty line is kept. -/
def ofText (localized : Bool) (child : Child) (next : Option Child) : TextContent → List Part
  | .blank .space => [.empty, .space]
  | .blank .lineBreak => []
  | .blank .blankLine => [.empty, .line .hard]
  | .words leading words trailing =>
    ofLeading localized (words.headD "") child next leading ++
      (words.map Part.word).intersperse (.line .orSpace) ++
      [ofTrailing localized (words.getLastD "") child next trailing]

/-- The parts of one child before the next. -/
def ofChild (localized : Bool) (child : Child) (next : Option Child) : List Part :=
  match child with
  | .text raw => ofText localized child next (TextContent.ofText raw)
  | .printed _ doc => [.printed doc, separatorAfter localized child next]

/-- The **parts of the children**, contents and separators in turn. -/
def ofChildren (localized : Bool) : List Child → List Part
  | [] => []
  | child :: children =>
    ofChild localized child children.head? ++ ofChildren localized children

/-! ## Merging -/

/-- A part before parts that are merged already.  Of two separators with nothing between them one
is kept: the space if one is a space, else the harder line.  Two hard lines are an empty line, which
is kept unless there is text. -/
def mergeStep (hasText : Bool) (part : Part) (merged : List Part) : List Part :=
  match part, merged with
  | .empty, .empty :: rest => rest
  | .line .hard, .empty :: .line .hard :: rest =>
    if hasText then .line .hard :: rest else .line .hard :: .empty :: .line .hard :: rest
  | .line .orNil, .empty :: .space :: rest
  | .line .hard, .empty :: .space :: rest
  | .space, .empty :: .space :: rest
  | .space, .empty :: .line .orNil :: rest
  | .space, .empty :: .line .hard :: rest => .space :: rest
  | .line .orNil, .empty :: .line .hard :: rest
  | .line .hard, .empty :: .line .orNil :: rest => .line .hard :: rest
  | part, merged => part :: merged

/-- **Merging**, from the last part to the first. -/
def merge (hasText : Bool) (parts : List Part) : List Part :=
  parts.foldr (mergeStep hasText) []

@[simp] theorem merge_nil (hasText : Bool) : merge hasText [] = [] := rfl

@[simp] theorem merge_cons (hasText : Bool) (part : Part) (parts : List Part) :
    merge hasText (part :: parts) = mergeStep hasText part (merge hasText parts) := rfl

/-! ## Trimming -/

/-- Parts without the lines and empty contents at their end. -/
def trimEnd (parts : List Part) : List Part :=
  (parts.reverse.dropWhile isLineOrEmpty).reverse

/-- Parts without the lines and empty contents at their start, dropped in pairs so that contents
stay at even positions. -/
def trimStart : List Part → List Part
  | first :: second :: rest =>
    if first.isLineOrEmpty && second.isLineOrEmpty then trimStart rest
    else first :: second :: rest
  | parts => parts

/-- **Trimming** at both ends. -/
def trim (parts : List Part) : List Part := trimStart (trimEnd parts)

/-- The parts of the children as they are laid out. -/
def arrange (localized hasText : Bool) (children : List Child) : List Part :=
  trim (merge hasText (ofChildren localized children))

end Part

end Reflow
