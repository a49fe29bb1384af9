import Reflow.Markup.Tag
import Reflow.Proofs.Doc.Closing
import Reflow.Proofs.Doc.Fitting

/-!
# Proofs/Markup/Parens — parentheses around what breaks

The parentheses of markup, the lines next to them and its indentation go by one group, so they are
all there or none of them is.  The group is broken when it is resolved, if it has to be, and else by
looking ahead; what is found to fit is the markup's texts on one line and nothing else
(`Parens.typeset_around`).
-/

namespace Reflow

/-- Text **in parentheses on lines of their own**. -/
def Text.InParens (lineBreak : LineBreak) (cs : List Char) : Prop :=
  ∃ body, cs = '(' :: lineBreak.chars ++ body ++ lineBreak.chars ++ [')']

/-! ## Layouts of a broken group -/

namespace Layout

/-- In a broken group with this indentation a layout is **written as `P`**, whatever follows it. -/
def Writes (o : LayoutOptions) (indent : Nat) (layout : Layout) (P : List Char → Prop) : Prop :=
  ∀ rest column, P ((layout.set o.printWidth .broken indent rest column).flatMap (Piece.chars o))

variable {o : LayoutOptions} {indent : Nat} {layout first second : Layout} {P Q : List Char → Prop}

theorem Writes.imp (h : layout.Writes o indent P) (hPQ : ∀ cs, P cs → Q cs) :
    layout.Writes o indent Q :=
  fun rest column => hPQ _ (h rest column)

theorem writes_text (s : String) : (text s).Writes o indent (· = s.toList) := fun _ _ =>
  List.flatMap_singleton ..

theorem writes_newline :
    newline.Writes o indent (· = o.lineBreak.chars ++ Piece.indentation o indent) := fun _ _ =>
  List.flatMap_singleton ..

theorem writes_softBreak (spaces : Nat) :
    (softBreak spaces).Writes o indent (· = o.lineBreak.chars ++ Piece.indentation o indent) :=
  writes_newline

theorem writes_blankLine : blankLine.Writes o indent (· = o.lineBreak.chars) := fun _ _ =>
  List.flatMap_singleton ..

/-- What two layouts in a row write is **one text behind the other**. -/
theorem Writes.seq (h : first.Writes o indent P) (h' : second.Writes o indent Q) :
    (seq first second).Writes o indent fun cs => ∃ xs ys, cs = xs ++ ys ∧ P xs ∧ Q ys := by
  intro rest column
  rw [set, List.flatMap_append]
  exact ⟨_, _, rfl, h .., h' ..⟩

theorem Writes.nest {columns : Nat} (h : layout.Writes o (indent + columns) P) :
    (nest columns layout).Writes o indent P :=
  h

theorem Writes.broken (flat : Layout) (h : layout.Writes o indent P) :
    (choice flat layout).Writes o indent P :=
  h

/-- What stands between two parentheses, with a line break next to each of them, is **in parentheses
on lines of their own**. -/
theorem writes_inParens {opening closing last inner : Layout} {columns : Nat}
    (hopening : opening.Writes o 0 (· = ['('])) (hclosing : closing.Writes o 0 (· = [')']))
    (hfirst : first.Writes o columns fun cs => ∃ tail, cs = o.lineBreak.chars ++ tail)
    (hlast : last.Writes o 0 fun cs => ∃ front, cs = front ++ o.lineBreak.chars) :
    (seq opening (seq (nest columns (seq first inner)) (seq last (seq closing nil)))).Writes o 0
      (Text.InParens o.lineBreak) := by
  have hinner : inner.Writes o columns fun _ => True := fun _ _ => trivial
  have hnil : nil.Writes o 0 (· = []) := fun _ _ => rfl
  have hnested : (nest columns (seq first inner)).Writes o 0 fun cs =>
      ∃ tail, cs = o.lineBreak.chars ++ tail := by
    refine Writes.nest ((Nat.zero_add columns).symm ▸ (hfirst.seq hinner).imp ?_)
    rintro _ ⟨_, ys, rfl, ⟨tail, rfl⟩, -⟩
    exact ⟨tail ++ ys, List.append_assoc ..⟩
  refine (hopening.seq (hnested.seq (hlast.seq (hclosing.seq hnil)))).imp ?_
  rintro _ ⟨_, _, rfl, rfl, _, _, rfl, ⟨tail, rfl⟩, _, _, rfl, ⟨front, rfl⟩, _, _, rfl, rfl, rfl⟩
  exact ⟨tail ++ front, by simp⟩

end Layout

/-! ## Parentheses -/

namespace Parens

open Doc (Flush resolve AllPlain certainBreak flushAt)
open Layout (Writes)

variable {o : LayoutOptions}

/-- A break that is certain **starts a line**, without anything pending. -/
theorem writes_certainBreak (flush : Flush) (beforeBreak : Bool) (indent : Nat) :
    (certainBreak flush beforeBreak []).layout.Writes o indent fun cs =>
      ∃ tail, cs = o.lineBreak.chars ++ tail := by
  cases beforeBreak with
  | false => exact Layout.writes_newline.imp fun _ h => ⟨_, h⟩
  | true => exact Layout.writes_blankLine.imp fun _ h => ⟨[], h.trans (List.append_nil _).symm⟩

/-- A break that is not that of an empty line **ends the line** after all that is pending. -/
theorem writes_certainBreak_end (flush : Flush) (pending : List Doc) :
    (certainBreak flush false pending).layout.Writes o 0 fun cs =>
      ∃ front, cs = front ++ o.lineBreak.chars := by
  have hnewline : Layout.newline.Writes o 0 (· = o.lineBreak.chars) :=
    Layout.writes_newline.imp fun cs h => by rw [h, Piece.indentation_zero, List.append_nil]
  cases pending with
  | nil => exact hnewline.imp fun cs h => ⟨[], h⟩
  | cons doc pending =>
    have hflushed : (flush (doc :: pending)).layout.Writes o 0 fun _ => True := fun _ _ => trivial
    refine Writes.imp (hflushed.seq hnewline) ?_
    rintro _ ⟨front, _, rfl, -, rfl⟩
    exact ⟨front, rfl⟩

variable {inner : Doc}

/-- What is **inside the group** of parentheses. -/
def contents (inner : Doc) : Doc :=
  .concat [.ifBreak (.text "(") .nil, .indent (Doc.line .orNil ++ inner), .line .orNil,
    .ifBreak (.text ")") .nil]

/-- Where there are no parentheses yet, they and the lines beside them stand **in one group**. -/
theorem around_eq (shouldBreak : Bool) (inner : Doc) :
    around false shouldBreak inner = .group shouldBreak (contents inner) := rfl

@[simp] theorem willBreak_contents (inner : Doc) :
    (contents inner).willBreak = inner.willBreak := by
  have horNil : (LineKind.orNil == .hard) = false := rfl
  simp [contents, Doc.willBreak, Doc.anyWillBreak_eq_any, Doc.line_append, Doc.nil, horNil]

@[simp] theorem suffixDepth_contents (inner : Doc) :
    (contents inner).suffixDepth = inner.suffixDepth := by
  simp [contents, Doc.suffixDepth, Doc.maxSuffixDepth, Doc.line_append, Doc.nil]

@[simp] theorem flatTexts_contents (inner : Doc) :
    (contents inner).flatTexts = inner.flatTexts := by
  simp [contents, Doc.flatTexts, Doc.allFlatTexts, Doc.line_append, Doc.nil]

theorem flatTexts_around (shouldBreak : Bool) (inner : Doc) :
    (around false shouldBreak inner).flatTexts = inner.flatTexts :=
  flatTexts_contents inner

/-- In a group that is **bound to break** the parentheses are there, and all that the markup holds
back is printed before the second one. -/
theorem layout_around_of_break (indentWidth : Nat) {shouldBreak : Bool}
    (hbreak : (shouldBreak || inner.willBreak) = true) (hdepth : inner.suffixDepth ≤ 1) :
    ((around false shouldBreak inner).layout indentWidth).Writes o 0
      (Text.InParens o.lineBreak) := by
  set flush := flushAt indentWidth (around false shouldBreak inner).suffixDepth with hflush
  have hclears : flush.Clears := Doc.flushAt_clears _ _
  set inside := resolve flush indentWidth .broken false inner []
  have hplain : AllPlain inside.pending :=
    (Doc.resolve_leaves hclears indentWidth .broken false inner hdepth Doc.allPlain_nil).plain
  have hgroup : resolve flush indentWidth .broken false (around false shouldBreak inner) [] =
      resolve flush indentWidth .broken false (contents inner) [] := by
    rw [around_eq, resolve]
    simp only [willBreak_contents, hbreak, Doc.innerState, Doc.inGroup, if_true]
  have hresolve : resolve flush indentWidth .broken false (around false shouldBreak inner) [] =
      ⟨.seq (.text "(") (.seq (.nest indentWidth (.seq
        (certainBreak flush (Doc.nextIsBreak .broken [inner]) []).layout (.seq inside.layout .nil)))
          (.seq (certainBreak flush false inside.pending).layout (.seq (.text ")") .nil))), []⟩ :=
    hgroup.trans (congrArg (Resolved.mk _) (Doc.pending_certainBreak hclears false hplain))
  rw [Doc.layout_eq_of_resolve hresolve]
  exact Layout.writes_inParens (Layout.writes_text "(") (Layout.writes_text ")")
    (writes_certainBreak flush _ _) (writes_certainBreak_end flush _)

/-- The layout of a group that the width decides: **its parentheses are a choice**, and its two
lines are soft. -/
theorem layout_around_of_undecided (indentWidth : Nat) (hbreak : inner.willBreak = false)
    (hdepth : inner.suffixDepth = 0) :
    let flush := flushAt indentWidth (around false false inner).suffixDepth
    let body := (resolve flush indentWidth .undecided false (contents inner) []).layout
    (around false false inner).layout indentWidth = .group body ∧
      body = .seq (.choice .nil (.text "(")) (.seq (.nest indentWidth (.seq (.softBreak 0)
        (.seq (resolve flush indentWidth .undecided false inner []).layout .nil)))
          (.seq (.softBreak 0) (.seq (.choice .nil (.text ")")) .nil))) := by
  intro flush body
  have hpending : (resolve flush indentWidth .undecided false (contents inner) []).pending = [] :=
    Doc.pending_resolve_eq_nil _ _ _ _ (by rw [suffixDepth_contents, hdepth])
  refine ⟨Doc.layout_eq_of_resolve ?_, rfl⟩
  rw [around_eq, resolve, willBreak_contents, hbreak]
  exact congrArg (Resolved.mk _) hpending

/-- **Parentheses are there or not, both of them.**  What the group of parentheses is typeset as is
either the texts of the markup on one line, without parentheses, or stands in parentheses on lines
of their own. -/
theorem typeset_around (hindent : 0 < o.indentWidth) {shouldBreak : Bool}
    (hcandid : (around false shouldBreak inner).IsCandid)
    (halternatives : (around false shouldBreak inner).hasAlternatives = true) :
    ∃ output, (around false shouldBreak inner).typeset o = .ok output ∧
      (output = String.join inner.flatTexts ∨ Text.InParens o.lineBreak output.toList) := by
  have hwillBreak : (around false shouldBreak inner).willBreak = (shouldBreak || inner.willBreak) :=
    congrArg (shouldBreak || ·) (willBreak_contents inner)
  have hsuffixDepth : (around false shouldBreak inner).suffixDepth = inner.suffixDepth :=
    suffixDepth_contents inner
  refine ⟨_, by rw [Doc.typeset, if_neg hindent.ne'], ?_⟩
  rw [Piece.toList_write]
  cases hbreak : shouldBreak || inner.willBreak with
  | true =>
    exact .inr (layout_around_of_break o.indentWidth hbreak (hsuffixDepth ▸ hcandid.shallow) [] 0)
  | false =>
    obtain ⟨rfl, hinner⟩ := Bool.or_eq_false_iff.mp hbreak
    have hdepth : inner.suffixDepth = 0 :=
      hsuffixDepth ▸ hcandid.none_of_not_break (hwillBreak.trans hbreak)
    obtain ⟨hlayout, hbody⟩ := layout_around_of_undecided o.indentWidth hinner hdepth
    set flush := flushAt o.indentWidth (around false false inner).suffixDepth
    set body := (resolve flush o.indentWidth .undecided false (contents inner) []).layout
    have hflat : body.FlatAs (contents inner).flatTexts :=
      Doc.flatAs_resolve flush o.indentWidth Doc.undecided_ne_broken false (contents inner)
        ⟨(willBreak_contents inner).trans hinner, (suffixDepth_contents inner).trans hdepth,
          halternatives⟩
    rw [flatTexts_contents] at hflat
    rw [Doc.pieces, hlayout]
    cases hfits : Layout.fits o.printWidth [] 0 body with
    | true =>
      -- a look ahead that finds the group to fit has seen all its texts
      have hset := Layout.set_group_of_flatAs hflat (hflat.room_of_fits hfits) 0
      left
      rw [Piece.write, Layout.pieces, hset.chars, ← String.toList_join, String.ofList_toList]
    | false =>
      right
      rw [Layout.pieces, Layout.set]
      simp only [hfits, Bool.false_eq_true, if_false]
      rw [hbody]
      exact Layout.writes_inParens (Layout.Writes.broken _ (Layout.writes_text "("))
        (Layout.Writes.broken _ (Layout.writes_text ")"))
        ((Layout.writes_softBreak 0).imp fun _ h => ⟨_, h⟩)
        ((Layout.writes_softBreak 0).imp fun cs h => ⟨[], h.trans (by simp)⟩) [] 0

end Parens

end Reflow
