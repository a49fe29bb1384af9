import Reflow.Doc.Typeset
import Reflow.Markup.Body
import Reflow.Proofs.Layout.Columns
import Mathlib.Data.List.Chain
import Mathlib.Tactic.SplitIfs

/-!
# Proofs/Markup/Filling — where a fill is broken

A fill of texts is set in **rows**.  A plain space is kept if there is room for it and for what
follows up to the next place where the fill may be broken; a space that may be spelled out is kept
if there is room for the space itself, and a line that is nothing when flat is always kept.  So a
row that keeps plain spaces alone stays within the width (`Filling.exists_rows_typeset`), and any
other may grow beyond it (`Filling.fill_exceeds_width`).
-/

namespace Reflow

/-! ## Looking ahead -/

namespace Outlook

theorem andThen_assoc (a : Outlook) (f g : Nat → Outlook) :
    (a.andThen f).andThen g = a.andThen fun column => (f column).andThen g := by
  cases a <;> rfl

theorem fits_upTo_andThen {width column : Nat} {next : Nat → Outlook} :
    ((upTo width column).andThen next).fits = true ↔ column ≤ width ∧
      (next column).fits = true := by
  rw [upTo]
  split_ifs with h
  · exact ⟨nofun, fun hle => absurd hle.1 (Nat.not_le.mpr h)⟩
  · exact ⟨fun hfits => ⟨Nat.not_lt.mp h, hfits⟩, And.right⟩

theorem fits_settled_andThen (fits : Bool) (next : Nat → Outlook) :
    ((settled fits).andThen next).fits = fits := rfl

end Outlook

/-! ## Separators -/

/-- What may stand **between two contents of a fill**: a line, or a space that is spelled out where
the fill is broken. -/
inductive Separator where
  | space
  | nothing
  | spelled (o : LanguageOptions)

namespace Separator

def doc : Separator → Doc
  | space => .line .orSpace
  | nothing => .line .orNil
  | spelled o => (SpaceStyle.inMarkup o).doc

/-- The layout of a separator that follows a content. -/
def layout : Separator → Layout
  | space => .group (.softBreak 1)
  | nothing => .firstFit .nil .newline
  | spelled o =>
    .firstFit (.text " ") (.seq (.text (SpaceStyle.inMarkup o).spelled) (.seq .newline .nil))

/-- A separator that is **kept** on its row. -/
def pieces : Separator → List Piece
  | space => [.spaces 1]
  | nothing => []
  | spelled _ => [.text " "]

def width : Separator → Nat
  | space | spelled _ => 1
  | nothing => 0

/-- What a separator leaves **at the end of a row** that is broken there. -/
def left : Separator → List String
  | space | nothing => []
  | spelled o => [(SpaceStyle.inMarkup o).spelled]

def leftWidth (separator : Separator) : Nat := (separator.left.map Text.width).sum

/-- Whether a separator is kept at a column, before something that reaches so far. -/
def isKept (width reach column : Nat) : Separator → Bool
  | space => column + 1 + reach ≤ width
  | nothing => true
  | spelled _ => column + 1 ≤ width

theorem columnAfterAll_pieces (separator : Separator) (column : Nat) :
    Piece.columnAfterAll column separator.pieces = column + separator.width := by
  cases separator <;> rfl

/-- A separator of a fill **is resolved** to its layout. -/
theorem fillFromSeparator_doc (flush : Doc.Flush) (indentWidth : Nat) (separator : Separator)
    (parts : List Doc) :
    Doc.fillFromSeparator flush indentWidth (separator.doc :: parts) [] =
      ⟨.seq separator.layout (Doc.fillFromContent flush indentWidth parts []).layout,
        (Doc.fillFromContent flush indentWidth parts []).pending⟩ := by
  cases separator <;> rfl

end Separator

/-! ## Fillings -/

/-- The **parts of a fill**: contents with separators between them.  A fill may end with either. -/
inductive Filling where
  | nil
  | last (content : String)
  | cons (content : String) (separator : Separator) (later : Filling)

namespace Filling

/-- The parts as documents. -/
def parts : Filling → List Doc
  | nil => []
  | last s => [.text s]
  | cons s separator later => .text s :: separator.doc :: later.parts

/-- The separators of a filling. -/
def separators : Filling → List Separator
  | nil | last _ => []
  | cons _ separator later => separator :: later.separators

/-- The columns up to the first place where the filling **may be broken**. -/
def reach : Filling → Nat
  | nil => 0
  | last s => Text.width s
  | cons s separator _ => Text.width s + separator.leftWidth

/-- Every content is within the width, together with what the separator after it leaves there. -/
def EachWithin (width : Nat) : Filling → Prop
  | nil => True
  | last s => Text.width s ≤ width
  | cons s separator later => Text.width s + separator.leftWidth ≤ width ∧ later.EachWithin width

/-- The layout of a filling outside flat groups. -/
def layout : Filling → Layout
  | nil => .nil
  | last s => .seq (.group (.text s)) .nil
  | cons s separator later => .seq (.group (.text s)) (.seq separator.layout later.layout)

/-- The pieces of a filling **on one row**. -/
def pieces : Filling → List Piece
  | nil => []
  | last s => [.text s]
  | cons s separator later => .text s :: (separator.pieces ++ later.pieces)

/-- The columns of a filling on one row. -/
def width : Filling → Nat
  | nil => 0
  | last s => Text.width s
  | cons s separator later => Text.width s + separator.width + later.width

/-! ## Rows -/

/-- A **row of a filling**: what stands on it, and the separator it is broken at. -/
structure Row where
  contents : Filling
  stop : Option Separator

namespace Row

variable (row : Row)

/-- The parts of a row as documents, with the separator it is broken at. -/
def parts : List Doc := row.contents.parts ++ row.stop.toList.map Separator.doc

/-- What the row ends with if it is broken. -/
def left : List String := row.stop.toList.flatMap Separator.left

def leftWidth : Nat := (row.left.map Text.width).sum

def pieces : List Piece := row.contents.pieces ++ row.left.map .text

def width : Nat := row.contents.width + row.leftWidth

/-- The columns up to the first place where the row may be broken, or is. -/
def reach : Nat :=
  match row.contents with
  | nil => row.leftWidth
  | last s => Text.width s + row.leftWidth
  | cons s separator _ => Text.width s + separator.leftWidth

/-- The row keeps **plain spaces alone**. -/
def IsPlain : Prop := ∀ separator ∈ row.contents.separators, separator = .space

/-- A content and a separator that is kept, in front of a row. -/
def cons (content : String) (separator : Separator) (row : Row) : Row :=
  ⟨.cons content separator row.contents, row.stop⟩

/-- A row is broken before another **only if its separator cannot be kept**. -/
def MustEndBefore (width column : Nat) (row next : Row) : Prop :=
  ∃ separator, row.stop = some separator ∧
    separator.isKept width next.reach (column + row.contents.width) = false

end Row

/-- **Wrapping a filling**: the row it starts with, from a column, and the rows after it, which
start at the indentation. -/
inductive Wraps (width indent : Nat) : Filling → (column : Nat) → Row → List Row → Prop
  | nil (column : Nat) : Wraps width indent nil column ⟨nil, none⟩ []
  | last (s : String) (column : Nat) : Wraps width indent (last s) column ⟨last s, none⟩ []
  | keep {s : String} {separator : Separator} {later : Filling} {column : Nat} {row : Row}
      {others : List Row}
      (kept : separator.isKept width later.reach (column + Text.width s) = true)
      (tail : Wraps width indent later (column + Text.width s + separator.width) row others) :
      Wraps width indent (cons s separator later) column (.cons s separator row) others
  | stop {s : String} {separator : Separator} {later : Filling} {column : Nat} {row : Row}
      {others : List Row}
      (stopped : separator.isKept width later.reach (column + Text.width s) = false)
      (tail : Wraps width indent later indent row others) :
      Wraps width indent (cons s separator later) column ⟨last s, some separator⟩ (row :: others)

theorem exists_wraps (width indent : Nat) (filling : Filling) (column : Nat) :
    ∃ row others, Wraps width indent filling column row others := by
  induction filling generalizing column with
  | nil => exact ⟨_, _, .nil column⟩
  | last s => exact ⟨_, _, .last s column⟩
  | cons s separator later ih =>
    cases hkept : separator.isKept width later.reach (column + Text.width s) with
    | true =>
      obtain ⟨row, others, htail⟩ := ih (column + Text.width s + separator.width)
      exact ⟨_, _, .keep hkept htail⟩
    | false =>
      obtain ⟨row, others, htail⟩ := ih indent
      exact ⟨_, _, .stop hkept htail⟩

theorem Row.columnAfterAll_pieces (row : Row) (column : Nat) :
    Piece.columnAfterAll column row.pieces = column + row.width := by
  have hcontents (contents : Filling) (column : Nat) :
      Piece.columnAfterAll column contents.pieces = column + contents.width := by
    induction contents generalizing column with
    | nil | last => rfl
    | cons s separator later ih =>
      rw [Filling.pieces, Piece.columnAfterAll_cons, Piece.columnAfterAll_append,
        separator.columnAfterAll_pieces, ih, Piece.columnAfter, Filling.width, Nat.add_assoc,
        Nat.add_assoc, Nat.add_assoc]
  rw [Row.pieces, Piece.columnAfterAll_append, hcontents, Piece.columnAfterAll_texts, Row.width,
    Row.leftWidth, Nat.add_assoc]

theorem Row.width_eq_reach {row : Row} (h : row.contents.separators = []) :
    row.width = row.reach := by
  rcases row with ⟨_ | s | ⟨s, separator, later⟩, stop⟩
  · exact Nat.zero_add _
  · rfl
  · cases h

namespace Wraps

variable {width indent column : Nat} {filling : Filling} {row : Row} {others : List Row}

/-- The rows hold **the parts of the filling**. -/
theorem flatMap_parts (h : Wraps width indent filling column row others) :
    (row :: others).flatMap Row.parts = filling.parts := by
  induction h with
  | nil | last => rfl
  | keep _ _ ih => exact congrArg (fun docs => _ :: _ :: docs) ih
  | stop _ _ ih => exact congrArg (fun docs => _ :: _ :: docs) ih

theorem reach_eq (h : Wraps width indent filling column row others) :
    row.reach = filling.reach := by
  cases h with
  | nil | last | keep => rfl
  | stop => simp [Row.reach, Row.leftWidth, Row.left, reach, Separator.leftWidth]

/-- A row is broken only where **its separator cannot be kept**. -/
theorem isChain (h : Wraps width indent filling column row others) :
    (∀ next ∈ others.head?, row.MustEndBefore width column next) ∧
      others.IsChain (Row.MustEndBefore width indent) := by
  induction h with
  | nil | last => exact ⟨nofun, .nil⟩
  | @keep s separator later column row others kept tail ih =>
    refine ⟨fun next hnext => ?_, ih.2⟩
    obtain ⟨stop, hstop, hstopped⟩ := ih.1 next hnext
    refine ⟨stop, hstop, ?_⟩
    rw [← hstopped]
    simp [Row.cons, Filling.width, Nat.add_assoc]
  | stop stopped tail ih =>
    refine ⟨?_, List.isChain_cons.mpr ih⟩
    rintro _ ⟨⟩
    exact ⟨_, rfl, by rwa [tail.reach_eq]⟩

/-- A row that keeps plain spaces **stays within the width**, if it keeps any. -/
theorem width_le (h : Wraps width indent filling column row others) :
    (row.IsPlain → row.contents.separators ≠ [] → column + row.width ≤ width) ∧
      ∀ other ∈ others, other.IsPlain → other.contents.separators ≠ [] →
        indent + other.width ≤ width := by
  induction h with
  | nil | last => exact ⟨fun _ h => absurd rfl h, nofun⟩
  | @keep s separator later column row others kept tail ih =>
    refine ⟨fun hplain _ => ?_, ih.2⟩
    obtain ⟨rfl, hrow⟩ := List.forall_mem_cons.mp hplain
    have hwidth : (Row.cons s .space row).width = Text.width s + 1 + row.width := by
      simp [Row.cons, Row.width, Filling.width, Row.leftWidth, Row.left, Separator.width,
        Nat.add_assoc]
    rw [hwidth]
    by_cases hsingle : row.contents.separators = []
    · have hreach : row.width = later.reach := (Row.width_eq_reach hsingle).trans tail.reach_eq
      rw [Separator.isKept, decide_eq_true_eq] at kept
      omega
    · have hle := ih.1 hrow hsingle
      rw [Separator.width] at hle
      omega
  | stop stopped tail ih =>
    exact ⟨fun _ h => absurd rfl h, List.forall_mem_cons.mpr ih⟩

theorem width_le_of_mem (h : Wraps width indent filling indent row others) {other : Row}
    (hother : other ∈ row :: others) (hplain : other.IsPlain)
    (hseparators : other.contents.separators ≠ []) : indent + other.width ≤ width := by
  obtain rfl | hother := List.mem_cons.mp hother
  · exact h.width_le.1 hplain hseparators
  · exact h.width_le.2 other hother hplain hseparators

theorem reach_le (h : Wraps width indent filling column row others)
    (hwithin : filling.EachWithin width) : ∀ other ∈ row :: others, other.reach ≤ width := by
  induction h with
  | nil => simp [Row.reach, Row.leftWidth, Row.left]
  | last s => exact List.forall_mem_singleton.mpr hwithin
  | keep kept tail ih =>
    exact List.forall_mem_cons.mpr ⟨hwithin.1, (List.forall_mem_cons.mp (ih hwithin.2)).2⟩
  | stop stopped tail ih =>
    refine List.forall_mem_cons.mpr ⟨?_, ih hwithin.2⟩
    simpa [Row.reach, Row.leftWidth, Row.left, Separator.leftWidth] using hwithin.1

end Wraps

/-! ## Setting -/

theorem fillFromContent_parts (flush : Doc.Flush) (indentWidth : Nat) (filling : Filling) :
    Doc.fillFromContent flush indentWidth filling.parts [] = ⟨filling.layout, []⟩ := by
  induction filling with
  | nil => rfl
  | last s => rfl
  | cons s separator later ih =>
    have hlater := separator.fillFromSeparator_doc flush indentWidth later.parts
    rw [ih] at hlater
    change (⟨.seq (.group (.text s))
      (Doc.fillFromSeparator flush indentWidth (separator.doc :: later.parts) []).layout,
      (Doc.fillFromSeparator flush indentWidth (separator.doc :: later.parts) []).pending⟩ :
        Resolved) = _
    rw [hlater]
    rfl

section Set

variable {width : Nat} {rest : Layout.Rest}

/-- **Looking ahead** over a filling sees as far as it reaches, if what comes after it
rules no line out. -/
theorem fits_outlook_layout
    (hrest : ∀ column ≤ width, (Layout.outlookRest width rest column).fits = true)
    (filling : Filling) (column : Nat) :
    ((Layout.outlook width .broken filling.layout column).andThen
      (Layout.outlookRest width rest)).fits = true ↔ column + filling.reach ≤ width := by
  cases filling with
  | nil =>
    rw [layout, Layout.outlook, Outlook.fits_upTo_andThen,
      and_iff_left_of_imp (hrest column), reach, Nat.add_zero]
  | last s =>
    simp only [layout, Layout.outlook, Outlook.andThen_assoc, Outlook.fits_upTo_andThen, reach]
    rw [and_iff_left_of_imp (hrest _), and_self]
  | cons s separator later =>
    simp only [layout, Layout.outlook, Outlook.andThen_assoc, Outlook.fits_upTo_andThen, reach]
    cases separator with
    | space | nothing => exact and_iff_left rfl
    | spelled o =>
      simp only [Separator.layout, Layout.outlook, Outlook.andThen_assoc, Outlook.fits_upTo_andThen,
        Outlook.fits_settled_andThen, Separator.leftWidth, Separator.left, List.map_cons,
        List.map_nil, List.sum_singleton, and_true]
      omega

/-- A separator **is set** as it is kept, or as what it leaves and a line break. -/
theorem set_separator
    (hrest : ∀ column ≤ width, (Layout.outlookRest width rest column).fits = true)
    (separator : Separator) (later : Filling) (indent column : Nat) :
    separator.layout.set width .broken indent ((.broken, later.layout) :: rest) column =
      if separator.isKept width later.reach column then separator.pieces
      else separator.left.map .text ++ [.newline indent] := by
  cases separator with
  | space =>
    have hfits : Layout.fits width ((.broken, later.layout) :: rest) column (.softBreak 1) = true ↔
        Separator.space.isKept width later.reach column = true := by
      rw [Layout.fits, Layout.outlook, Outlook.fits_upTo_andThen, Layout.outlookRest,
        fits_outlook_layout hrest, Separator.isKept, decide_eq_true_eq]
      omega
    rw [Separator.layout, Layout.set]
    exact if_congr hfits rfl rfl
  | nothing => rfl
  | spelled o =>
    have hstays : Piece.staysWithin width column [.text " "] = true ↔
        (Separator.spelled o).isKept width later.reach column = true := by
      rw [Piece.staysWithin_text, Piece.staysWithin, Bool.and_true]
      rfl
    exact if_congr hstays rfl rfl

/-- A filling outside flat groups **is set in rows**. -/
theorem Wraps.set {indent column : Nat} {filling : Filling} {row : Row} {others : List Row}
    (h : Wraps width indent filling column row others)
    (hrest : ∀ column ≤ width, (Layout.outlookRest width rest column).fits = true) :
    filling.layout.set width .broken indent rest column =
      [Piece.newline indent].intercalate ((row :: others).map Row.pieces) := by
  have hcontent (s : String) (rest : Layout.Rest) (column : Nat) :
      (Layout.group (.text s)).set width .broken indent rest column = [.text s] := by
    rw [Layout.set]
    exact ite_self _
  have hcolumn (s : String) (column : Nat) :
      Piece.columnAfterAll column [.text s] = column + Text.width s := rfl
  induction h with
  | nil => rfl
  | last s column =>
    rw [layout, Layout.set, hcontent]
    rfl
  | @keep s separator later column row others kept tail ih =>
    rw [layout, Layout.set, hcontent, Layout.set, hcolumn, set_separator hrest, if_pos kept,
      separator.columnAfterAll_pieces, ih]
    rcases others with _ | ⟨next, others⟩
    · simp [Row.cons, Row.pieces, Row.left, pieces]
    · simp [Row.cons, Row.pieces, Row.left, pieces, List.intercalate_cons_cons]
  | @stop s separator later column row others stopped tail ih =>
    have hnext : Piece.columnAfterAll (column + Text.width s)
        (separator.left.map .text ++ [.newline indent]) = indent := Piece.columnAfterAll_append ..
    rw [layout, Layout.set, hcontent, Layout.set, hcolumn, set_separator hrest,
      if_neg (Bool.not_eq_true _ ▸ stopped), hnext, ih]
    simp [Row.pieces, Row.left, pieces]

end Set

/-- **A fill is set in rows.**  If every content is within the width, with the space that may be
spelled out behind it, so is every row that keeps plain spaces alone; and a row is broken only where
its separator cannot be kept. -/
theorem exists_rows_typeset (o : LayoutOptions) (hindent : 0 < o.indentWidth) {filling : Filling}
    (hwithin : filling.EachWithin o.printWidth) :
    ∃ rows : List Row,
      (Doc.fill filling.parts).typeset o =
          .ok (Piece.write o ([Piece.newline 0].intercalate (rows.map Row.pieces))) ∧
        rows.flatMap Row.parts = filling.parts ∧
        (∀ row ∈ rows, row.IsPlain → Piece.columnAfterAll 0 row.pieces ≤ o.printWidth) ∧
        rows.IsChain (Row.MustEndBefore o.printWidth 0) := by
  obtain ⟨row, others, hwraps⟩ := exists_wraps o.printWidth 0 filling 0
  refine ⟨row :: others, ?_, hwraps.flatMap_parts, fun other hother hplain => ?_,
    List.isChain_cons.mpr hwraps.isChain⟩
  · have hresolve : Doc.resolve (Doc.flushAt o.indentWidth (Doc.fill filling.parts).suffixDepth)
        o.indentWidth .broken false (.fill filling.parts) [] = ⟨filling.layout, []⟩ :=
      fillFromContent_parts _ o.indentWidth filling
    have hset := @Wraps.set _ [] _ _ _ _ _ hwraps fun _ _ => rfl
    rw [← hset, Doc.typeset, if_neg hindent.ne', Doc.pieces, Doc.layout, hresolve]
    rfl
  · rw [Row.columnAfterAll_pieces, Nat.zero_add]
    by_cases hsingle : other.contents.separators = []
    · rw [Row.width_eq_reach hsingle]
      exact hwraps.reach_le hwithin other hother
    · have hle := hwraps.width_le_of_mem hother hplain hsingle
      rwa [Nat.zero_add] at hle

/-- A space is broken where nothing but the space fits, and kept where all does. -/
theorem exists_rows_typeset_words :
    (cons "aaa" .space (cons "bb" .space (last "cccc"))).EachWithin 6 ∧
      ∃ rows : List Row,
        (Doc.fill (cons "aaa" .space (cons "bb" .space (last "cccc"))).parts).typeset
              { printWidth := 6 } =
            .ok (Piece.write { printWidth := 6 }
              ([Piece.newline 0].intercalate (rows.map Row.pieces))) ∧
          rows.flatMap Row.parts = (cons "aaa" .space (cons "bb" .space (last "cccc"))).parts ∧
          (∀ row ∈ rows, row.IsPlain → Piece.columnAfterAll 0 row.pieces ≤ 6) ∧
          rows.IsChain (Row.MustEndBefore 6 0) := by
  have hwithin : (cons "aaa" .space (cons "bb" .space (last "cccc"))).EachWithin 6 :=
    ⟨by decide, by decide, show 4 ≤ 6 by decide⟩
  exact ⟨hwithin, exists_rows_typeset { printWidth := 6 } (by decide) hwithin⟩

/-- A line that is nothing when flat is kept **where the width is used up**. -/
theorem fill_exceeds_width :
    (cons "aaa" .nothing (last "bbb")).EachWithin 3 ∧
      (Doc.fill (cons "aaa" .nothing (last "bbb")).parts).typeset { printWidth := 3 } =
        .ok "aaabbb" ∧
      Piece.staysWithin 3 0
        ((Doc.fill (cons "aaa" .nothing (last "bbb")).parts).pieces { printWidth := 3 }) = false :=
  ⟨⟨by decide, show 3 ≤ 3 by decide⟩, rfl, rfl⟩

/-- And so is a space that would be spelled out, where only the space fits. -/
example :
    (cons "aaa" (.spelled {}) (last "bbbbbbb")).EachWithin 8 ∧
      (Doc.fill (cons "aaa" (.spelled {}) (last "bbbbbbb")).parts).typeset { printWidth := 8 } =
        .ok "aaa bbbbbbb" :=
  ⟨⟨by decide, show 7 ≤ 8 by decide⟩, rfl⟩

end Filling

end Reflow
