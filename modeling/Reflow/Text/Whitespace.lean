/-!
# Text/Whitespace — the whitespace of markup text

Markup keeps whitespace that stays on one line and reads away whitespace that spans lines, so a text
is known to its neighbours by its words and by which kind of run surrounds them.

Four characters are blank; every other space character, the no-break space among them, belongs to a
word.
-/

namespace Reflow

namespace Text

/-- The **blank** characters: space, tab, line feed and carriage return. -/
def isBlank (c : Char) : Bool :=
  c == ' ' || c == '\n' || c == '\r' || c == '\t'

/-- A text without its leading blanks. -/
def trimStart (cs : List Char) : List Char := cs.dropWhile isBlank

/-- A text without its trailing blanks. -/
def trimEnd (cs : List Char) : List Char := (cs.reverse.dropWhile isBlank).reverse

/-- The leading blanks of a text. -/
def leadingBlanks (cs : List Char) : List Char := cs.takeWhile isBlank

/-- The trailing blanks of a text. -/
def trailingBlanks (cs : List Char) : List Char := (cs.reverse.takeWhile isBlank).reverse

/-- The **pieces between blanks**, the empty ones between two neighbouring blanks included: a text
with `n` blanks has `n + 1` pieces. -/
def pieces : List Char → List (List Char)
  | [] => [[]]
  | c :: rest => if isBlank c then [] :: pieces rest else (pieces rest).modifyHead (c :: ·)

/-- The words of a text: its pieces that are not empty. -/
def words (cs : List Char) : List String :=
  ((pieces cs).filter fun piece => !piece.isEmpty).map String.ofList

/-- The **first word** of a text, empty when it has none. -/
def firstWord (raw : String) : String :=
  match (pieces raw.toList).find? fun piece => !piece.isEmpty with
  | some piece => String.ofList piece
  | none => ""

/-- A text **counts as content** unless it is whitespace that spans lines. -/
def isMeaningful (raw : String) : Bool :=
  raw.toList.any (fun c => !isBlank c) || !raw.toList.contains '\n'

/-! ## Nothing is lost

Trimming takes off blanks only, and the pieces hold everything else. -/

theorem leadingBlanks_append_trimStart (cs : List Char) : leadingBlanks cs ++ trimStart cs = cs :=
  List.takeWhile_append_dropWhile

theorem trimEnd_append_trailingBlanks (cs : List Char) : trimEnd cs ++ trailingBlanks cs = cs := by
  rw [trimEnd, trailingBlanks, ← List.reverse_append, List.takeWhile_append_dropWhile,
    List.reverse_reverse]

end Text

/-- A run of blanks, by the line feeds in it. -/
inductive Whitespace where
  /-- No line feed: a space that is kept. -/
  | space
  /-- One line feed. -/
  | lineBreak
  /-- Two line feeds or more. -/
  | blankLine
  deriving DecidableEq, Repr

namespace Whitespace

/-- The kind of a run. -/
def ofRun (run : List Char) : Whitespace :=
  match run.count '\n' with
  | 0 => space
  | 1 => lineBreak
  | _ => blankLine

/-- Whether the run spans lines. -/
def spansLines : Whitespace → Bool
  | space => false
  | lineBreak | blankLine => true

/-- The kind of a run at the edge of a word, if there is a run at all. -/
def ofEdge? (run : List Char) : Option Whitespace :=
  if run.isEmpty then none else some (ofRun run)

end Whitespace

/-- What a text child holds. -/
inductive TextContent where
  /-- Nothing but blanks. -/
  | blank (whitespace : Whitespace)
  /-- At least one word, with the run at either end. -/
  | words (leading : Option Whitespace) (words : List String) (trailing : Option Whitespace)
  deriving DecidableEq, Repr

namespace TextContent

/-- The **content of a text**: trim it at the front; if nothing is left it is one run of blanks, and
otherwise the words lie in what trimming both ends leaves. -/
def ofText (raw : String) : TextContent :=
  let fromFirstWord := Text.trimStart raw.toList
  if fromFirstWord.isEmpty then .blank (.ofRun raw.toList)
  else
    .words (Whitespace.ofEdge? (Text.leadingBlanks raw.toList))
      (Text.words (Text.trimEnd fromFirstWord))
      (Whitespace.ofEdge? (Text.trailingBlanks fromFirstWord))

end TextContent

end Reflow
