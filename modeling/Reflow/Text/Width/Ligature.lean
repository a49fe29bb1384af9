import Reflow.Text.Width.Ranges

/-!
# Text/Width/Ligature — letters that are drawn as one

Some letters take their columns together.  A ligature is found from its **last** letter, which says
what it waits for; `Ligature.step` says what becomes of it at the character before.  Marks that are
not drawn leave a ligature as it is.
-/

namespace Reflow.Text

/-! ## Letters -/

/-- An Arabic letter of the group of alef. -/
def isAlef (c : Char) : Bool :=
  inRanges [(0x622, 0x623), (0x625, 0x625), (0x627, 0x627), (0x671, 0x673), (0x675, 0x675),
    (0x773, 0x774), (0x870, 0x882)] c.toNat

/-- An Arabic letter of the group of lam. -/
def isLam (c : Char) : Bool :=
  inRanges [(0x644, 0x644), (0x6B5, 0x6B8), (0x76A, 0x76A), (0x8A6, 0x8A6), (0x8C7, 0x8C7)] c.toNat

/-- A Khmer letter whose subscript form stays **below** the letter before it. -/
def isSubscriptLetter (c : Char) : Bool :=
  inRanges [(0x1780, 0x1782), (0x1784, 0x1787), (0x1789, 0x178C), (0x178E, 0x1793),
    (0x1795, 0x1798), (0x179B, 0x179D), (0x17A0, 0x17A0), (0x17A2, 0x17A2), (0x17A7, 0x17A7),
    (0x17AB, 0x17AC), (0x17AF, 0x17AF)] c.toNat

/-- A Tifinagh letter that can be joined to another. -/
def isTifinaghConsonant (c : Char) : Bool :=
  inRanges [(0x2D31, 0x2D65), (0x2D6F, 0x2D6F)] c.toNat

/-! ## Marks inside -/

/-- The code points without a column of their own that **break** the joining of Arabic letters. -/
def breakingRanges : List (Nat × Nat) :=
  [(0x605, 0x605), (0x890, 0x891), (0x8E2, 0x8E2), (0x9BE, 0x9BE), (0x9D7, 0x9D7), (0xB3E, 0xB3E),
   (0xB57, 0xB57), (0xBBE, 0xBBE), (0xBD7, 0xBD7), (0xCC0, 0xCC0), (0xCC2, 0xCC2), (0xCC7, 0xCC8),
   (0xCCA, 0xCCB), (0xCD5, 0xCD6), (0xD3E, 0xD3E), (0xD4E, 0xD4E), (0xD57, 0xD57), (0xDCF, 0xDCF),
   (0xDDF, 0xDDF), (0x1160, 0x11FF), (0x1715, 0x1715), (0x1734, 0x1734), (0x180E, 0x180E),
   (0x1B35, 0x1B35), (0x1B3B, 0x1B3B), (0x1B3D, 0x1B3D), (0x1B43, 0x1B44), (0x1BAA, 0x1BAA),
   (0x1BF2, 0x1BF3), (0x200C, 0x200D), (0x2065, 0x2069), (0x302E, 0x302F), (0x3164, 0x3164),
   (0xA8FA, 0xA8FA), (0xA953, 0xA953), (0xA9C0, 0xA9C0), (0xD7B0, 0xD7C6), (0xD7CB, 0xD7FB),
   (0xFFA0, 0xFFA0), (0xFFF0, 0xFFF8), (0x111C0, 0x111C0), (0x111C2, 0x111C3), (0x11235, 0x11235),
   (0x1133E, 0x1133E), (0x1134D, 0x1134D), (0x11357, 0x11357), (0x113B8, 0x113B8),
   (0x113C2, 0x113C2), (0x113C5, 0x113C5), (0x113C7, 0x113C9), (0x113CF, 0x113CF),
   (0x113D1, 0x113D1), (0x114B0, 0x114B0), (0x114BD, 0x114BD), (0x115AF, 0x115AF),
   (0x116B6, 0x116B6), (0x11930, 0x11930), (0x1193D, 0x1193D), (0x1193F, 0x1193F),
   (0x11941, 0x11941), (0x11A84, 0x11A89), (0x11D46, 0x11D46), (0x11F02, 0x11F02),
   (0x11F41, 0x11F41), (0x16FF0, 0x16FF1), (0x1D165, 0x1D166), (0x1D16D, 0x1D172),
   (0xE0000, 0xE0000), (0xE0002, 0xE001F), (0xE0080, 0xE00FF), (0xE01F0, 0xE0FFF)]

/-- A mark that Arabic letters join across. -/
def isJoinedAcross (c : Char) : Bool :=
  inRanges zeroWidthRanges c.toNat && !inRanges breakingRanges c.toNat

/-- A mark that is **not drawn**: the grapheme joiner, the inherent vowels of Khmer and the
variation selectors. -/
def isUndrawnMark (c : Char) : Bool :=
  inRanges [(0x34F, 0x34F), (0x17B4, 0x17B5), (0x180B, 0x180D), (0x180F, 0x180F), (0xFE00, 0xFE0F),
    (0xE0100, 0xE01EF)] c.toNat

/-! ## From the last letter -/

/-- The **end of a ligature**, from a letter that may complete one. -/
inductive Ligature where
  /-- Waits for a lam. -/
  | alef
  /-- Waits for a joiner and an alef of Hebrew. -/
  | lamed
  /-- Waits for the subscript sign of Khmer. -/
  | subscript
  /-- Waits for a joiner and the vowel i of Buginese. -/
  | ya
  /-- A joined ya after its vowel; waits for the letter a. -/
  | vowelYa
  /-- Waits for a joiner, of either kind, and a consonant of Tifinagh. -/
  | consonant
  /-- A consonant after the joiner of its own script. -/
  | joinedConsonant
  /-- Waits for the first tone of Lisu. -/
  | tone
  /-- Waits for a joiner and the letter ec of Old Turkic. -/
  | orkhonI
  /-- A vowel sign e of Kirat Rai; waits for another or for the sign that goes before. -/
  | vowelE
  /-- Two vowel signs e of Kirat Rai. -/
  | vowelAi
  deriving DecidableEq, Repr

namespace Ligature

/-- The ligature a letter may be the last of. -/
def ofLast? (c : Char) : Option Ligature :=
  if c == '\u05DC' then some lamed
  else if isAlef c then some alef
  else if isSubscriptLetter c then some subscript
  else if c == '\u1A10' then some ya
  else if isTifinaghConsonant c then some consonant
  else if c == '\uA4FC' || c == '\uA4FD' then some tone
  else if c.toNat == 0x10C03 then some orkhonI
  else if c.toNat == 0x16D67 then some vowelE
  else if c.toNat == 0x16D68 then some vowelAi
  else none

/-- Whether marks may stand inside: the vowel signs of Kirat Rai join only side by side. -/
def admitsMarks : Ligature → Bool
  | vowelE | vowelAi => false
  | alef | lamed | subscript | ya | vowelYa | consonant | joinedConsonant | tone | orkhonI => true

/-- What becomes of a ligature at the character before it. -/
inductive Step where
  /-- The character belongs to the ligature, which goes on: what it waits for now, and whether a
  joiner has been seen. -/
  | goesOn (columns : Int) (rest : Ligature) (joined : Bool)
  /-- The character completes the ligature; columns counted too many are taken back. -/
  | completes (columns : Int)
  /-- The character has nothing to do with it. -/
  | ends
  deriving DecidableEq, Repr

/-- The step of a vowel sign e of Kirat Rai. -/
def stepVowelE (c : Char) : Step :=
  if c.toNat == 0x16D63 || c.toNat == 0x16D69 then .completes 0
  else if c.toNat == 0x16D67 then .goesOn 0 vowelAi false
  else if c.toNat == 0x16D68 then .goesOn 1 vowelE false
  else .ends

/-- The step at a character that is drawn. -/
def stepDrawn (joined : Bool) (c : Char) : Ligature → Step
  | alef => if isLam c then .completes 0 else .ends
  | lamed => if joined && c == '\u05D0' then .completes 0 else .ends
  | subscript => if c == '\u17D2' then .completes (-1) else .ends
  | ya => if joined && c == '\u1A17' then .goesOn 0 vowelYa false else .ends
  | vowelYa => if c == '\u1A15' then .completes 0 else .ends
  | consonant =>
    if c == '\u2D7F' then .goesOn 1 joinedConsonant false
    else if joined && isTifinaghConsonant c then .completes 0
    else .ends
  | joinedConsonant => if isTifinaghConsonant c then .completes (-1) else .ends
  | tone => if 0xA4F8 ≤ c.toNat && c.toNat ≤ 0xA4FB then .completes 0 else .ends
  | orkhonI => if joined && c.toNat == 0x10C32 then .completes 0 else .ends
  | vowelE => stepVowelE c
  | vowelAi => if c.toNat == 0x16D63 then .completes 0 else .ends

/-- Whether a character is a **mark inside** the ligature: Arabic letters join across all marks that
are drawn over or under them, other letters only across those that are not drawn. -/
def isMarkInside (c : Char) : Ligature → Bool
  | alef => isJoinedAcross c
  | last => last.admitsMarks && isUndrawnMark c

/-- The **step** of a ligature at the character before it. -/
def step (joined : Bool) (c : Char) (last : Ligature) : Step :=
  if c == joiner && last.admitsMarks && last != alef then .goesOn 0 last true
  else if last.isMarkInside c then .goesOn 0 last joined
  else last.stepDrawn joined c

end Ligature

end Reflow.Text
