import Mathlib.Data.List.Basic
import Mathlib.Tactic.SplitIfs
import Reflow.Layout.Set

/-!
# Proofs/Layout/Neat — lines that do not end with blanks

A line break writes the indentation of the next line before it is known what follows.  So whether a
line ends with blanks is a matter of what stands between two line breaks: the **edge** of the line
so far is clean or ragged, and no line may be broken at a ragged edge.  Pieces that keep to this are
neat (`Piece.Neat`), and what neat pieces are written as has no blank in front of a line break
(`Piece.Neat.not_endsBlank`).
-/

namespace Reflow

/-! ## The edge of a line -/

/-- How a line **stands so far**. -/
inductive Edge where
  /-- Nothing, or something that is not a blank. -/
  | clean
  /-- Perhaps a space, a tab or the indentation of the line. -/
  | ragged
  deriving DecidableEq, Repr

namespace Edge

/-- Less is known of a ragged edge than of a clean one. -/
instance : LE Edge := ⟨fun d e => d = clean ∨ e = ragged⟩

variable {d e : Edge}

@[simp] theorem clean_le (e : Edge) : clean ≤ e := .inl rfl

@[simp] theorem le_ragged (d : Edge) : d ≤ ragged := .inr rfl

@[simp] protected theorem le_refl (d : Edge) : d ≤ d := by cases d <;> simp

/-- Only a clean edge is **as good as a clean one**. -/
theorem eq_clean_of_le (h : d ≤ clean) : d = clean := h.elim id nofun

end Edge

namespace Text

/-- Whether characters **end with a blank**, a space or a tab. -/
def endsBlank (cs : List Char) : Bool := cs.getLast?.any fun c => c == ' ' || c == '\t'

/-- How characters end is said by **the last ones**, if there are any. -/
theorem endsBlank_append {ys : List Char} (h : ys ≠ []) (xs : List Char) :
    endsBlank (xs ++ ys) = endsBlank ys := by
  rw [endsBlank, endsBlank, List.getLast?_append_of_ne_nil _ h]

/-- The edge of a line **after a text** that is set at an edge. -/
def edgeAfter (d : Edge) (s : String) : Edge :=
  if s = "" then d else if endsBlank s.toList then .ragged else .clean

/-- A better edge in front of a text is **no worse behind it**. -/
theorem edgeAfter_mono {d e : Edge} (h : d ≤ e) (s : String) : edgeAfter d s ≤ edgeAfter e s := by
  rw [edgeAfter, edgeAfter]
  split_ifs
  · exact h
  · exact Edge.le_refl _
  · exact Edge.le_refl _

/-- A text that stands on one line and **does not end with a blank**. -/
structure IsSolid (s : String) : Prop where
  nonempty : s ≠ ""
  oneLine : '\n' ∉ s.toList
  clean : endsBlank s.toList = false

instance (s : String) : Decidable (IsSolid s) :=
  decidable_of_iff (s ≠ "" ∧ '\n' ∉ s.toList ∧ endsBlank s.toList = false)
    ⟨fun ⟨nonempty, oneLine, clean⟩ => ⟨nonempty, oneLine, clean⟩,
      fun h => ⟨h.nonempty, h.oneLine, h.clean⟩⟩

/-- Behind a solid text the edge is clean **whatever it was in front**. -/
theorem IsSolid.edgeAfter {s : String} (h : IsSolid s) (d : Edge) :
    Text.edgeAfter d s = .clean := by
  rw [Text.edgeAfter, if_neg h.nonempty, h.clean, if_neg Bool.false_ne_true]

end Text

open Text (endsBlank edgeAfter)

/-! ## Pieces -/

namespace Piece

/-- Pieces that are **neat** between two edges: set at the first one, they break no line that ends
with blanks, and leave the line at the second one. -/
inductive Neat : Edge → List Piece → Edge → Prop
  | nil {d e : Edge} (h : d ≤ e) : Neat d [] e
  | text {d e : Edge} {s : String} {pieces : List Piece} (oneLine : '\n' ∉ s.toList)
      (h : Neat (edgeAfter d s) pieces e) : Neat d (text s :: pieces) e
  | noSpaces {d e : Edge} {pieces : List Piece} (h : Neat d pieces e) :
      Neat d (spaces 0 :: pieces) e
  | spaces {d e : Edge} (n : Nat) {pieces : List Piece} (h : Neat .ragged pieces e) :
      Neat d (spaces n :: pieces) e
  | newline {e : Edge} (indent : Nat) {pieces : List Piece} (h : Neat .ragged pieces e) :
      Neat .clean (newline indent :: pieces) e
  | blankLine {e : Edge} {pieces : List Piece} (h : Neat .clean pieces e) :
      Neat .clean (blankLine :: pieces) e

namespace Neat

variable {d d' e e' : Edge} {xs ys : List Piece}

/-- What is neat behind an edge is so **behind a better one**, and it may be
said to leave a worse. -/
theorem mono (h : Neat d xs e) (hd : d' ≤ d) (he : e ≤ e') : Neat d' xs e' := by
  induction h generalizing d' with
  | nil h =>
    refine .nil ?_
    obtain rfl | rfl := he
    · rw [Edge.eq_clean_of_le h] at hd
      rw [Edge.eq_clean_of_le hd]
      exact Edge.clean_le _
    · exact Edge.le_ragged _
  | text oneLine _ ih => exact .text oneLine (ih (Text.edgeAfter_mono hd _) he)
  | noSpaces _ ih => exact .noSpaces (ih hd he)
  | spaces n _ ih => exact .spaces n (ih (Edge.le_refl _) he)
  | newline indent _ ih =>
    rw [Edge.eq_clean_of_le hd]
    exact .newline indent (ih (Edge.le_refl _) he)
  | blankLine _ ih =>
    rw [Edge.eq_clean_of_le hd]
    exact .blankLine (ih (Edge.le_refl _) he)

/-- The edge that is left by the first pieces is **the one the others start from**. -/
theorem append {m : Edge} (h : Neat d xs m) (h' : Neat m ys e) : Neat d (xs ++ ys) e := by
  induction h with
  | nil h => exact h'.mono h (Edge.le_refl _)
  | text oneLine _ ih => exact .text oneLine (ih h')
  | noSpaces _ ih => exact .noSpaces (ih h')
  | spaces n _ ih => exact .spaces n (ih h')
  | newline indent _ ih => exact .newline indent (ih h')
  | blankLine _ ih => exact .blankLine (ih h')

end Neat

/-! ## Characters -/

/-- Every line feed of characters that follow others is that of a line break, **with no blank in
front of it**. -/
def BreaksClean (lineBreak : LineBreak) (front cs : List Char) : Prop :=
  ∀ xs ys, cs = xs ++ '\n' :: ys →
    ∃ line, xs = line ++ lineBreak.chars.dropLast ∧ endsBlank (front ++ line) = false

namespace BreaksClean

variable {lineBreak : LineBreak} {front cs rest : List Char}

theorem nil : BreaksClean lineBreak front [] := fun xs ys heq => by
  simp at heq

/-- What stands in front of the first line feed **is in front of it**. -/
theorem exists_of_append_eq {xs ys : List Char} (h : '\n' ∉ cs)
    (heq : cs ++ rest = xs ++ '\n' :: ys) :
    ∃ zs, xs = cs ++ zs ∧ rest = zs ++ '\n' :: ys := by
  obtain ⟨zs, rfl, hrest⟩ | ⟨zs, hcs, hrest⟩ := List.append_eq_append_iff.mp heq
  · exact ⟨zs, rfl, hrest⟩
  · cases zs with
    | nil =>
      rw [List.append_nil] at hcs
      exact ⟨[], by rw [hcs, List.append_nil], hrest.symm⟩
    | cons z zs =>
      obtain rfl : '\n' = z := (List.cons.inj hrest).1
      exact absurd (by rw [hcs]; exact List.mem_append_right xs List.mem_cons_self) h

/-- Characters without a line break only **add to the line** they stand on. -/
theorem plain (h : '\n' ∉ cs) (hrest : BreaksClean lineBreak (front ++ cs) rest) :
    BreaksClean lineBreak front (cs ++ rest) := by
  intro xs ys heq
  obtain ⟨zs, rfl, hzs⟩ := exists_of_append_eq h heq
  obtain ⟨line, rfl, hline⟩ := hrest zs ys hzs
  exact ⟨cs ++ line, (List.append_assoc ..).symm, by rwa [← List.append_assoc]⟩

theorem breakLine (hfront : endsBlank front = false)
    (hrest : BreaksClean lineBreak (front ++ lineBreak.chars) rest) :
    BreaksClean lineBreak front (lineBreak.chars ++ rest) := by
  intro xs ys heq
  have hchars : lineBreak.chars = lineBreak.chars.dropLast ++ ['\n'] ∧
      '\n' ∉ lineBreak.chars.dropLast := by
    cases lineBreak <;> exact ⟨rfl, by decide⟩
  rw [hchars.1, List.append_assoc] at heq
  obtain ⟨zs, rfl, hzs⟩ := exists_of_append_eq hchars.2 heq
  cases zs with
  | nil => exact ⟨[], by simp, by rwa [List.append_nil]⟩
  | cons z zs =>
    obtain ⟨rfl, hlater⟩ := List.cons.inj hzs
    obtain ⟨line, rfl, hline⟩ := hrest zs ys hlater
    refine ⟨lineBreak.chars ++ line, ?_, by rwa [← List.append_assoc]⟩
    conv_rhs => rw [hchars.1]
    simp

end BreaksClean

/-- Indentation is **tabs and spaces**, so it ends no line. -/
theorem not_mem_indentation (o : LayoutOptions) (columns : Nat) : '\n' ∉ indentation o columns := by
  rw [indentation]
  split_ifs <;> simp [List.mem_replicate]

/-- **No line break is written behind a blank.**  What neat pieces are written as, behind characters
that end with a blank at most where the edge is ragged, breaks lines cleanly. -/
theorem Neat.breaksClean {d e : Edge} {pieces : List Piece} (h : Neat d pieces e)
    (o : LayoutOptions) {front : List Char} (hfront : d = .clean → endsBlank front = false) :
    BreaksClean o.lineBreak front (pieces.flatMap (chars o)) := by
  induction h generalizing front with
  | nil => exact .nil
  | @text d _ s pieces oneLine _ ih =>
    refine .plain oneLine (ih fun hclean => ?_)
    rw [chars]
    by_cases hempty : s = ""
    · subst hempty
      simpa using hfront (by simpa [edgeAfter] using hclean)
    · rw [Text.endsBlank_append (by simpa using hempty)]
      simpa [edgeAfter, hempty] using hclean
  | noSpaces _ ih => exact ih hfront
  | spaces n _ ih => exact .plain (by simp [chars, List.mem_replicate]) (ih nofun)
  | newline indent _ ih =>
    rw [List.flatMap_cons, chars, List.append_assoc]
    exact .breakLine (hfront rfl) (.plain (not_mem_indentation o indent) (ih nofun))
  | blankLine _ ih =>
    refine .breakLine (hfront rfl) (ih fun _ => ?_)
    cases o.lineBreak with
    | lf => rw [Text.endsBlank_append (by decide)]; rfl
    | crlf => rw [Text.endsBlank_append (by decide)]; rfl

/-- No line of what neat pieces are written as, but the last one, **ends with a space or a tab**. -/
theorem Neat.not_endsBlank {e : Edge} {pieces : List Piece} (h : Neat .clean pieces e)
    (o : LayoutOptions) {xs ys : List Char}
    (heq : (write o pieces).toList = xs ++ o.lineBreak.chars ++ ys) :
    endsBlank xs = false := by
  rw [toList_write] at heq
  have hfeed : pieces.flatMap (chars o) = (xs ++ o.lineBreak.chars.dropLast) ++ '\n' :: ys := by
    rw [heq]
    cases o.lineBreak <;> simp [LineBreak.chars]
  obtain ⟨line, hline, hclean⟩ := @breaksClean _ _ _ h o [] (fun _ => rfl) _ _ hfeed
  rw [List.append_cancel_right hline]
  exact hclean

end Piece

/-! ## Layouts -/

namespace Layout

/-- A layout that is set as **neat pieces** in a group of the given mode, at every width and
wherever it stands. -/
def Neat (mode : Mode) (d : Edge) (layout : Layout) (e : Edge) : Prop :=
  ∀ width indent rest column, Piece.Neat d (layout.set width mode indent rest column) e

variable {mode : Mode} {d m e : Edge} {layout other body : Layout}

theorem neat_nil (mode : Mode) (d : Edge) : nil.Neat mode d d :=
  fun _ _ _ _ => .nil (Edge.le_refl d)

theorem neat_text {s : String} (oneLine : '\n' ∉ s.toList) (mode : Mode) (d : Edge) :
    (text s).Neat mode d (edgeAfter d s) := fun _ _ _ _ => .text oneLine (.nil (Edge.le_refl _))

theorem neat_newline (mode : Mode) : newline.Neat mode .clean .ragged :=
  fun _ indent _ _ => .newline indent (.nil (Edge.le_refl _))

theorem neat_blankLine (mode : Mode) : blankLine.Neat mode .clean .clean :=
  fun _ _ _ _ => .blankLine (.nil (Edge.le_refl _))

theorem neat_softBreak_flat (n : Nat) (d : Edge) : (softBreak n).Neat .flat d .ragged :=
  fun _ _ _ _ => .spaces n (.nil (Edge.le_refl _))

theorem neat_noSpace_flat (d : Edge) : (softBreak 0).Neat .flat d d :=
  fun _ _ _ _ => .noSpaces (.nil (Edge.le_refl _))

/-- Where its group is broken, a soft line **needs a clean edge**, and indents the next line. -/
theorem neat_softBreak_broken (n : Nat) : (softBreak n).Neat .broken .clean .ragged :=
  fun _ indent _ _ => .newline indent (.nil (Edge.le_refl _))

theorem Neat.mono {d' e' : Edge} (h : layout.Neat mode d e) (hd : d' ≤ d) (he : e ≤ e') :
    layout.Neat mode d' e' :=
  fun width indent rest column => (h width indent rest column).mono hd he

theorem Neat.nest (h : layout.Neat mode d e) (columns : Nat) :
    (nest columns layout).Neat mode d e :=
  fun width indent => h width (indent + columns)

theorem Neat.seq (h : layout.Neat mode d m) (h' : other.Neat mode m e) :
    (seq layout other).Neat mode d e :=
  fun width indent _ column => (h width indent _ column).append (h' width indent _ _)

theorem Neat.choice_flat (h : layout.Neat .flat d e) (broken : Layout) :
    (choice layout broken).Neat .flat d e := h

theorem Neat.choice_broken (h : layout.Neat .broken d e) (flat : Layout) :
    (choice flat layout).Neat .broken d e := h

theorem Neat.group_flat (h : body.Neat .flat d e) : (group body).Neat .flat d e := h

/-- A group **in a broken one** may be either. -/
theorem Neat.group (h : body.Neat .flat d e) (h' : body.Neat .broken d e) (mode : Mode) :
    (group body).Neat mode d e := by
  cases mode with
  | flat => exact h
  | broken =>
    intro width indent rest column
    rw [set]
    split_ifs
    · exact h width indent rest column
    · exact h' width indent rest column

theorem Neat.firstFit (h : layout.Neat mode d e) (h' : other.Neat mode d e) :
    (firstFit layout other).Neat mode d e := by
  intro width indent rest column
  rw [set]
  split_ifs
  · exact h width indent [] column
  · exact h' width indent rest column

/-- Nothing **always fits**. -/
theorem neat_firstFit_nil (fallback : Layout) (mode : Mode) (d : Edge) :
    (firstFit .nil fallback).Neat mode d d := neat_nil mode d

end Layout

end Reflow
