import Reflow.Text.Width.Ligature
import Reflow.Text.Width.Emoji

/-!
# Text/Width/Ahead — what stands ahead of a character

The columns a character takes depend on what follows it, and on little of that: whether a ligature
or an emoji sequence may begin there, and whether a selector stands between.  `Ahead` is that much
of the rest of a text.
-/

namespace Reflow.Text

/-- What **stands ahead** of a character, as far as it bears on the columns the character takes. -/
inductive Ahead where
  | nothing
  | lineFeed
  /-- The end of a ligature, perhaps behind a joiner. -/
  | ligature (last : Ligature) (joined : Bool)
  | emoji (rest : EmojiEnd)
  deriving DecidableEq, Repr

namespace Ahead

/-- What a character is to the one before it. -/
def ofLast (c : Char) : Ahead :=
  if c == '\n' then lineFeed
  else if c.toNat < 0xA0 then nothing
  else
    match Ligature.ofLast? c, EmojiEnd.ofLast? c with
    | some last, _ => ligature last false
    | none, some rest => emoji rest
    | none, none => nothing

/-- A ligature that marks may stand in. -/
def isLigature : Ahead → Bool
  | ligature last _ => last.admitsMarks
  | nothing | lineFeed | emoji _ => false

/-- An emoji behind a joiner, or behind a keycap and a joiner. -/
def isJoinedEmoji : Ahead → Bool
  | emoji .joined | emoji .joinedKeycap => true
  | _ => false

/-- The **step** at a character that belongs together with what stands ahead: the columns it adds,
and what stands ahead of the next one. -/
def step? (c : Char) : Ahead → Option (Int × Ahead)
  | nothing => none
  | lineFeed => if c == '\r' then some (0, nothing) else none
  | ligature last joined =>
    match last.step joined c with
    | .goesOn columns rest joined => some (columns, ligature rest joined)
    | .completes columns => some (columns, nothing)
    | .ends => none
  | emoji rest => (rest.step? c).map fun (columns, rest) => (columns, emoji rest)

end Ahead

/-! ## Selectors -/

/-- The **selectors** that choose between forms of unequal width. -/
inductive Selector where
  | emojiStyle
  | textStyle
  /-- The wide form of a quotation mark. -/
  | wideForm
  deriving DecidableEq, Repr

namespace Selector

/-- The selector that a character is. -/
def ofChar? : Char → Option Selector
  | '\uFE0F' => some emojiStyle
  | '\uFE0E' => some textStyle
  | '\uFE01' => some wideForm
  | _ => none

/-- The quotation marks that have a wide form. -/
def hasWideForm (c : Char) : Bool :=
  c == '\u2018' || c == '\u2019' || c == '\u201C' || c == '\u201D'

/-- What is left of it **behind a selector**: a ligature, in which the selector is but a mark, and
before emoji style a sequence that goes on to the left of a joiner. -/
def behind (selector : Selector) (ahead : Ahead) : Ahead :=
  if ahead.isLigature || selector == emojiStyle && ahead.isJoinedEmoji then ahead else .nothing

/-- A character whose form the selector **chooses**.  An emoji before a joiner takes no columns
besides those of the emoji it is joined to. -/
def choose? (ahead : Ahead) (c : Char) : Selector → Option (Int × Ahead)
  | emojiStyle =>
    if hasEmojiStyle c then some (if ahead.isJoinedEmoji then 0 else 2, .emoji .emoji) else none
  | textStyle => if hasTextStyle c then some (1, .nothing) else none
  | wideForm => if hasWideForm c then some (2, .nothing) else none

end Selector

end Reflow.Text
