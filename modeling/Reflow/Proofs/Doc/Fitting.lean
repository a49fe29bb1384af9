import Reflow.Proofs.Doc.Flat
import Reflow.Proofs.Layout.Columns

/-!
# Proofs/Doc/Fitting — groups that fit stay flat

A group that need not break is set on one line wherever there is room for its texts.  The look ahead
counts the columns of exactly the texts that a flat group is set as (`Layout.FlatAs`): a choice
gives its flat side to both, and an attempt inside is never given up, for it takes no more room than
the whole.  So the text of a group that fits is its texts on one line, at every width that holds
them (`Doc.typeset_grouped_flat`).
-/

namespace Reflow

/-- The columns of texts on one line. -/
def Text.widths (ts : List String) : Nat := (ts.map Text.width).sum

theorem Text.widths_cons (s : String) (ts : List String) :
    Text.widths (s :: ts) = Text.width s + Text.widths ts := rfl

theorem Text.widths_append (ts us : List String) :
    Text.widths (ts ++ us) = Text.widths ts + Text.widths us := by
  rw [widths, List.map_append, List.sum_append, widths, widths]

/-! ## Pieces -/

namespace Piece

/-- Spaces must leave their column within the width, also if there are none. -/
theorem staysWithin_spaces (width column n : Nat) (pieces : List Piece) :
    staysWithin width column (spaces n :: pieces) =
      (decide (column + n ≤ width) && staysWithin width (column + n) pieces) :=
  rfl

/-- Pieces that **spell out texts**: they are written as the texts, and take as many columns. -/
structure SpellOut (ts : List String) (pieces : List Piece) : Prop where
  chars (o : LayoutOptions) : pieces.flatMap (chars o) = ts.flatMap String.toList
  column (column : Nat) : columnAfterAll column pieces = column + Text.widths ts
  stays {width column : Nat} (h : column + Text.widths ts ≤ width) :
    staysWithin width column pieces = true

namespace SpellOut

variable {ts us : List String} {pieces more : List Piece}

theorem nil : SpellOut [] [] := ⟨fun _ => rfl, fun _ => rfl, fun _ => rfl⟩

theorem text (s : String) : SpellOut [s] [.text s] where
  chars _ := rfl
  column _ := rfl
  stays h := by
    rw [staysWithin_text, Bool.and_eq_true]
    exact ⟨decide_eq_true h, rfl⟩

theorem space : SpellOut [" "] [.spaces 1] where
  chars _ := rfl
  column _ := rfl
  stays h := by
    rw [staysWithin_spaces, Bool.and_eq_true]
    exact ⟨decide_eq_true h, rfl⟩

theorem noSpace : SpellOut [] [.spaces 0] where
  chars _ := rfl
  column _ := rfl
  stays h := by
    rw [staysWithin_spaces, Bool.and_eq_true]
    exact ⟨decide_eq_true h, rfl⟩

theorem append (h : SpellOut ts pieces) (h' : SpellOut us more) :
    SpellOut (ts ++ us) (pieces ++ more) where
  chars o := by rw [List.flatMap_append, List.flatMap_append, h.chars, h'.chars]
  column column := by
    rw [columnAfterAll_append, h.column, h'.column, Text.widths_append, Nat.add_assoc]
  stays {width column} hroom := by
    rw [Text.widths_append, ← Nat.add_assoc] at hroom
    rw [staysWithin_append, h.column, h.stays (by omega), h'.stays hroom]
    rfl

end SpellOut

end Piece

/-! ## Layouts -/

/-- A column within the width leaves the look ahead **unsettled**. -/
theorem Outlook.upTo_of_le {width column : Nat} (h : column ≤ width) :
    Outlook.upTo width column = .reached column :=
  if_neg (Nat.not_lt.mpr h)

namespace Layout

/-- A layout that is **flat as these texts**: where there is room for them, a look ahead in a flat
group counts their columns, and setting it there spells them out. -/
structure FlatAs (layout : Layout) (ts : List String) : Prop where
  outlook {width column : Nat} (h : column + Text.widths ts ≤ width) :
    layout.outlook width .flat column = .reached (column + Text.widths ts)
  set {width column : Nat} (h : column + Text.widths ts ≤ width) (indent : Nat) (rest : Rest) :
    Piece.SpellOut ts (layout.set width .flat indent rest column)

namespace FlatAs

variable {layout other : Layout} {ts us : List String}

theorem nil : Layout.nil.FlatAs [] := ⟨Outlook.upTo_of_le, fun _ _ _ => .nil⟩

theorem text (s : String) : (Layout.text s).FlatAs [s] := ⟨Outlook.upTo_of_le, fun _ _ _ => .text s⟩

theorem space : (softBreak 1).FlatAs [" "] := ⟨Outlook.upTo_of_le, fun _ _ _ => .space⟩

theorem noSpace : (softBreak 0).FlatAs [] := ⟨Outlook.upTo_of_le, fun _ _ _ => .noSpace⟩

/-- The room that two layouts take is **that of both**, looked for one after the other. -/
theorem seq (h : layout.FlatAs ts) (h' : other.FlatAs us) :
    (seq layout other).FlatAs (ts ++ us) := by
  constructor
  · intro width column hroom
    rw [Text.widths_append, ← Nat.add_assoc] at hroom ⊢
    rw [Layout.outlook, h.outlook (by omega)]
    exact h'.outlook hroom
  · intro width column hroom indent rest
    rw [Text.widths_append, ← Nat.add_assoc] at hroom
    have hbefore : column + Text.widths ts ≤ width := by omega
    have hfirst := h.set hbefore indent ((.flat, other) :: rest)
    rw [Layout.set, hfirst.column]
    exact hfirst.append (h'.set hroom indent rest)

theorem nest (h : layout.FlatAs ts) (columns : Nat) : (nest columns layout).FlatAs ts :=
  ⟨h.outlook, fun hroom indent => h.set hroom (indent + columns)⟩

theorem group (h : layout.FlatAs ts) : (group layout).FlatAs ts := ⟨h.outlook, h.set⟩

theorem inGroup (h : layout.FlatAs ts) (state : GroupState) :
    (Doc.inGroup state layout).FlatAs ts := by
  cases state with
  | flat | broken => exact h
  | undecided => exact h.group

/-- Of a choice **the flat side** is taken. -/
theorem choice (h : layout.FlatAs ts) (broken : Layout) : (choice layout broken).FlatAs ts :=
  ⟨h.outlook, h.set⟩

/-- An attempt with room for its texts **is not given up**. -/
theorem firstFit (h : layout.FlatAs ts) (fallback : Layout) :
    (firstFit layout fallback).FlatAs ts := by
  refine ⟨h.outlook, fun hroom indent rest => ?_⟩
  have htried := h.set hroom indent []
  rw [Layout.set, if_pos (htried.stays hroom)]
  exact htried

end FlatAs

/-- In a flat group a look ahead rules it out or **reaches a column within the width**, which is the
same at every larger width. -/
theorem outlook_flat_cases (layout : Layout) {width width' : Nat} (hle : width ≤ width')
    (column : Nat) : layout.outlook width .flat column = .settled false ∨
      ∃ reached ≤ width, layout.outlook width .flat column = .reached reached ∧
        layout.outlook width' .flat column = .reached reached := by
  have hupTo (column : Nat) : Outlook.upTo width column = .settled false ∨
      ∃ reached ≤ width, Outlook.upTo width column = .reached reached ∧
        Outlook.upTo width' column = .reached reached := by
    by_cases hroom : column ≤ width
    · exact .inr ⟨column, hroom, Outlook.upTo_of_le hroom, Outlook.upTo_of_le (hroom.trans hle)⟩
    · exact .inl (if_pos (Nat.lt_of_not_le hroom))
  induction layout generalizing column with
  | nil | blankLine | text | softBreak => exact hupTo _
  | newline => exact .inl rfl
  | choice _ _ ihFlat => exact ihFlat column
  | firstFit _ _ ihAttempt => exact ihAttempt column
  | nest _ _ ih => exact ih column
  | group _ ih => exact ih column
  | seq first second ihFirst ihSecond =>
    rw [outlook, outlook]
    obtain hsettled | ⟨reached, -, hreached, hreached'⟩ := ihFirst column
    · rw [hsettled]
      exact .inl rfl
    · rw [hreached, hreached']
      exact ihSecond reached

/-- A group that fits **has room** for its texts. -/
theorem FlatAs.room_of_fits {body : Layout} {ts : List String} (h : body.FlatAs ts)
    {width column : Nat} {rest : Rest} (hfits : fits width rest column body = true) :
    column + Text.widths ts ≤ width := by
  obtain hsettled | ⟨reached, hle, -, hreached⟩ :=
    body.outlook_flat_cases (Nat.le_max_left width (column + Text.widths ts)) column
  · rw [fits, hsettled] at hfits
    cases hfits
  · rw [h.outlook (Nat.le_max_right ..)] at hreached
    exact Outlook.reached.inj hreached ▸ hle

/-- A group with room for its texts, and nothing behind it, **is set flat**. -/
theorem set_group_of_flatAs {body : Layout} {ts : List String} (h : body.FlatAs ts)
    {width column : Nat} (hroom : column + Text.widths ts ≤ width) (indent : Nat) :
    Piece.SpellOut ts ((group body).set width .broken indent [] column) := by
  have hfits : fits width [] column body = true := by
    rw [fits, h.outlook hroom]
    rfl
  rw [set, if_pos hfits]
  exact h.set hroom indent []

end Layout

/-! ## Documents -/

namespace Doc

/-- What holds nothing back **leaves nothing pending**. -/
theorem pending_resolve_eq_nil (flush : Flush) (indentWidth : Nat) (state : GroupState)
    (beforeBreak : Bool) {doc : Doc} (h : doc.suffixDepth = 0) :
    (resolve flush indentWidth state beforeBreak doc []).pending = [] :=
  (resolve_yields {} flush indentWidth state beforeBreak doc h).pending

/-- The layout of a document that leaves nothing pending is **what it is resolved to**. -/
theorem layout_eq_of_resolve {indentWidth : Nat} {doc : Doc} {layout : Layout}
    (h : resolve (flushAt indentWidth doc.suffixDepth) indentWidth .broken false doc [] =
      ⟨layout, []⟩) :
    doc.layout indentWidth = layout := by
  rw [Doc.layout, h]
  rfl

theorem willBreak_of_breaking {separator : Doc} (h : separator.separatorKind = .breaking) :
    separator.willBreak = true := by
  unfold separatorKind at h
  split at h
  · cases h
  · cases h
  · split_ifs at h with hbreak
    exact hbreak

mutual

/-- Whether no choice of a document, at any depth, is between **one variant alone**. -/
def hasAlternatives : Doc → Bool
  | text _ | line _ | suffixBoundary => true
  | concat docs | fill docs => allHaveAlternatives docs
  | indent doc | group _ doc | lineSuffix doc => doc.hasAlternatives
  | ifBreak broken flat => broken.hasAlternatives && flat.hasAlternatives
  | conditional variants => variants.length != 1 && allHaveAlternatives variants

def allHaveAlternatives : List Doc → Bool
  | [] => true
  | doc :: docs => doc.hasAlternatives && allHaveAlternatives docs

end

theorem allHaveAlternatives_eq_all (docs : List Doc) :
    allHaveAlternatives docs = docs.all hasAlternatives := by
  induction docs with
  | nil => rfl
  | cons doc docs ih => rw [allHaveAlternatives, ih, List.all_cons]

/-- A document that **may stay flat**: it need not break, holds nothing back, and has no choice of
one variant, which would be broken. -/
structure MayStayFlat (doc : Doc) : Prop where
  noBreak : doc.willBreak = false
  noneHeld : doc.suffixDepth = 0
  alternatives : doc.hasAlternatives = true

namespace MayStayFlat

variable {doc broken flat : Doc} {docs : List Doc}

/-- So may all documents **of a list**. -/
theorem forall_mem (hbreak : anyWillBreak docs = false) (hheld : maxSuffixDepth docs = 0)
    (halternatives : allHaveAlternatives docs = true) : ∀ doc ∈ docs, doc.MayStayFlat := by
  rw [anyWillBreak_eq_any, List.any_eq_false] at hbreak
  rw [maxSuffixDepth_eq_zero_iff] at hheld
  rw [allHaveAlternatives_eq_all, List.all_eq_true] at halternatives
  exact fun doc hdoc =>
    ⟨Bool.eq_false_iff.mpr (hbreak doc hdoc), hheld doc hdoc, halternatives doc hdoc⟩

theorem concat (h : (concat docs).MayStayFlat) : ∀ doc ∈ docs, doc.MayStayFlat :=
  forall_mem h.noBreak h.noneHeld h.alternatives

theorem of_forall_mem (h : ∀ doc ∈ docs, doc.MayStayFlat) : (Doc.concat docs).MayStayFlat where
  noBreak := by
    rw [willBreak_concat, List.any_eq_false]
    exact fun doc hdoc => Bool.eq_false_iff.mp (h doc hdoc).noBreak
  noneHeld := (maxSuffixDepth_eq_zero_iff _).mpr fun doc hdoc => (h doc hdoc).noneHeld
  alternatives := by
    rw [hasAlternatives, allHaveAlternatives_eq_all, List.all_eq_true]
    exact fun doc hdoc => (h doc hdoc).alternatives

theorem fill (h : (fill docs).MayStayFlat) : ∀ doc ∈ docs, doc.MayStayFlat :=
  forall_mem h.noBreak h.noneHeld h.alternatives

theorem indent (h : (indent doc).MayStayFlat) : doc.MayStayFlat :=
  ⟨h.noBreak, h.noneHeld, h.alternatives⟩

theorem group {shouldBreak : Bool} (h : (group shouldBreak doc).MayStayFlat) : doc.MayStayFlat :=
  ⟨(Bool.or_eq_false_iff.mp h.noBreak).2, h.noneHeld, h.alternatives⟩

/-- Of a choice by the group **the flat side** is printed. -/
theorem ifBreak (h : (ifBreak broken flat).MayStayFlat) : flat.MayStayFlat :=
  ⟨(Bool.or_eq_false_iff.mp h.noBreak).2, (Nat.max_eq_zero_iff.mp h.noneHeld).2,
    (Bool.and_eq_true_iff.mp h.alternatives).2⟩

/-- Of variants **the first one** is printed. -/
theorem conditional (h : (conditional (doc :: docs)).MayStayFlat) : doc.MayStayFlat :=
  ⟨h.noBreak, (Nat.max_eq_zero_iff.mp h.noneHeld).1,
    (Bool.and_eq_true_iff.mp (Bool.and_eq_true_iff.mp h.alternatives).2).1⟩

/-- A choice that may stay flat has **another variant** behind the first. -/
theorem isEmpty_others (h : (Doc.conditional (doc :: docs)).MayStayFlat) :
    docs.isEmpty = false := by
  cases docs with
  | nil => exact absurd h.alternatives (by simp [hasAlternatives])
  | cons => rfl

end MayStayFlat

theorem flat_ne_broken : GroupState.flat ≠ .broken := nofun

theorem undecided_ne_broken : GroupState.undecided ≠ .broken := nofun

mutual

/-- **Resolved outside broken groups**, a document that may stay flat is flat as its
texts on one line. -/
theorem flatAs_resolve (flush : Flush) (indentWidth : Nat) {state : GroupState}
    (hstate : state ≠ .broken) (beforeBreak : Bool) (doc : Doc) (h : doc.MayStayFlat) :
    (resolve flush indentWidth state beforeBreak doc []).layout.FlatAs doc.flatTexts := by
  match doc with
  | text s => exact .text s
  | line kind =>
    cases state with
    | broken => exact absurd rfl hstate
    | flat =>
      cases kind with
      | orSpace => exact .text " "
      | orNil => exact .nil
      | hard => exact absurd h.noBreak (by decide)
    | undecided =>
      cases kind with
      | orSpace => exact .space
      | orNil => exact .noSpace
      | hard => exact absurd h.noBreak (by decide)
  | lineSuffix contents => exact absurd h.noneHeld (Nat.succ_ne_zero _)
  | suffixBoundary => exact .nil
  | concat docs => exact flatAs_resolveAll flush indentWidth hstate docs h.concat
  | indent contents =>
    exact (flatAs_resolve flush indentWidth hstate false contents h.indent).nest indentWidth
  | group shouldBreak contents =>
    have hinner : innerState state (shouldBreak || contents.willBreak) ≠ .broken := by
      rw [show (shouldBreak || contents.willBreak) = false from h.noBreak]
      cases state <;> simp [innerState]
    exact (flatAs_resolve flush indentWidth hinner false contents h.group).inGroup _
  | fill parts =>
    cases state with
    | broken => exact absurd rfl hstate
    | flat => exact flatAs_resolveAll flush indentWidth hstate parts h.fill
    | undecided => exact flatAs_fillFromContent flush indentWidth parts h.fill
  | ifBreak broken flat =>
    have hflat := flatAs_resolve flush indentWidth flat_ne_broken false flat h.ifBreak
    cases state with
    | broken => exact absurd rfl hstate
    | flat => exact hflat
    | undecided => exact hflat.choice _
  | conditional [] => cases state <;> exact .nil
  | conditional (variant :: others) =>
    have hattempt :=
      flatAs_resolve flush indentWidth flat_ne_broken false variant h.conditional
    cases state with
    | broken => exact absurd rfl hstate
    | flat => exact hattempt
    | undecided =>
      have hfallback : (resolveVariants flush indentWidth others []).pending = [] :=
        (resolveVariants_yields {} flush indentWidth .broken others
          (Nat.max_eq_zero_iff.mp h.noneHeld).2).pending
      have hresolve :
          resolve flush indentWidth .undecided beforeBreak (conditional (variant :: others))
          [] = resolveVariants flush indentWidth (variant :: others) [] := rfl
      rw [hresolve, resolveVariants]
      simp only [h.isEmpty_others, h.conditional.noBreak, hfallback, Bool.false_eq_true, if_false]
      exact hattempt.firstFit _
termination_by structural doc

theorem flatAs_resolveAll (flush : Flush) (indentWidth : Nat) {state : GroupState}
    (hstate : state ≠ .broken) (docs : List Doc) (h : ∀ doc ∈ docs, doc.MayStayFlat) :
    (resolveAll flush indentWidth state docs []).layout.FlatAs (allFlatTexts docs) := by
  match docs with
  | [] => exact .nil
  | doc :: docs =>
    obtain ⟨hdoc, hdocs⟩ := List.forall_mem_cons.mp h
    rw [resolveAll, pending_resolve_eq_nil _ _ _ _ hdoc.noneHeld]
    exact (flatAs_resolve flush indentWidth hstate _ doc hdoc).seq
      (flatAs_resolveAll flush indentWidth hstate docs hdocs)
termination_by structural docs

theorem flatAs_fillFromContent (flush : Flush) (indentWidth : Nat) (parts : List Doc)
    (h : ∀ doc ∈ parts, doc.MayStayFlat) :
    (fillFromContent flush indentWidth parts []).layout.FlatAs (allFlatTexts parts) := by
  match parts with
  | [] => exact .nil
  | content :: parts =>
    obtain ⟨hcontent, hparts⟩ := List.forall_mem_cons.mp h
    rw [fillFromContent, pending_resolve_eq_nil _ _ _ _ hcontent.noneHeld, hcontent.noBreak]
    exact (flatAs_resolve flush indentWidth undecided_ne_broken _ content
      hcontent).group.seq (flatAs_fillFromSeparator flush indentWidth parts hparts)
termination_by structural parts

/-- A separator is tried flat first, and **it is never given up**: it takes no more
room than the whole. -/
theorem flatAs_fillFromSeparator (flush : Flush) (indentWidth : Nat) (parts : List Doc)
    (h : ∀ doc ∈ parts, doc.MayStayFlat) :
    (fillFromSeparator flush indentWidth parts []).layout.FlatAs (allFlatTexts parts) := by
  match parts with
  | [] => exact .nil
  | separator :: parts =>
    obtain ⟨hseparator, hparts⟩ := List.forall_mem_cons.mp h
    have hlater := flatAs_fillFromContent flush indentWidth parts hparts
    have hflat :=
      flatAs_resolve flush indentWidth flat_ne_broken false separator hseparator
    rw [fillFromSeparator.eq_def]
    cases hkind : separator.separatorKind with
    | hardLine =>
      obtain rfl := eq_hard_of_separatorKind hkind
      exact absurd hseparator.noBreak (by decide)
    | breaking => exact absurd hseparator.noBreak (by simp [willBreak_of_breaking hkind])
    | space =>
      obtain rfl := eq_orSpace_of_separatorKind hkind
      exact Layout.FlatAs.space.group.seq hlater
    | other =>
      simp only [hkind, pending_resolve_eq_nil _ _ _ _ hseparator.noneHeld]
      exact (hflat.firstFit _).seq hlater
termination_by structural parts

end

/-- Outside flat groups, a group that may stay flat is **left to the width**. -/
theorem MayStayFlat.resolve_grouped {doc : Doc} (h : doc.MayStayFlat) (flush : Flush)
    (indentWidth : Nat) (beforeBreak : Bool) :
    resolve flush indentWidth .broken beforeBreak doc.grouped [] =
      ⟨.group (resolve flush indentWidth .undecided false doc []).layout, []⟩ := by
  rw [grouped, resolve, h.noBreak]
  simp only [innerState, inGroup, Bool.or_false, Bool.false_eq_true, if_false,
    pending_resolve_eq_nil _ _ _ _ h.noneHeld]

/-- A group whose texts are within the width **is its texts**. -/
theorem MayStayFlat.typeset_grouped_of_room (o : LayoutOptions) (hindent : 0 < o.indentWidth)
    {doc : Doc} (h : doc.MayStayFlat) (hroom : Text.widths doc.flatTexts ≤ o.printWidth) :
    doc.grouped.typeset o = .ok (String.join doc.flatTexts) := by
  set flush := flushAt o.indentWidth doc.suffixDepth
  rw [← Nat.zero_add (Text.widths _)] at hroom
  have hset := Layout.set_group_of_flatAs
    (flatAs_resolve flush o.indentWidth undecided_ne_broken false doc h) hroom 0
  rw [typeset, if_neg hindent.ne', pieces,
    layout_eq_of_resolve (h.resolve_grouped flush o.indentWidth _), Layout.pieces, Piece.write,
    hset.chars, ← String.toList_join, String.ofList_toList]

/-- A group whose texts are wider than the width **is set broken**. -/
theorem MayStayFlat.typeset_grouped_broken (o : LayoutOptions) (hindent : 0 < o.indentWidth)
    {doc : Doc} (h : doc.MayStayFlat) (hwide : o.printWidth < Text.widths doc.flatTexts) :
    doc.grouped.typeset o = .ok (Piece.write o
      ((resolve (flushAt o.indentWidth doc.suffixDepth) o.indentWidth .undecided false doc
        []).layout.set o.printWidth .broken 0 [] 0)) := by
  set flush := flushAt o.indentWidth doc.suffixDepth
  have hflat := flatAs_resolve flush o.indentWidth undecided_ne_broken false doc h
  have hfits : ¬ Layout.fits o.printWidth [] 0
      (resolve flush o.indentWidth .undecided false doc []).layout = true := by
    intro hfits
    have := hflat.room_of_fits hfits
    omega
  rw [typeset, if_neg hindent.ne', pieces,
    layout_eq_of_resolve (h.resolve_grouped flush o.indentWidth _), Layout.pieces, Layout.set,
    if_neg hfits]

/-- **A group that fits is printed flat.**  A document that need not break, holds nothing
back and has no choice of one variant is, as a group, its texts on one line at every
width that holds them. -/
theorem typeset_grouped_flat (o : LayoutOptions) (hindent : 0 < o.indentWidth) {doc : Doc}
    (hbreak : doc.willBreak = false) (hheld : doc.suffixDepth = 0)
    (halternatives : doc.hasAlternatives = true)
    (hroom : Text.widths doc.flatTexts ≤ o.printWidth) :
    doc.grouped.typeset o = .ok (String.join doc.flatTexts) :=
  have hstays : doc.MayStayFlat := ⟨hbreak, hheld, halternatives⟩
  hstays.typeset_grouped_of_room o hindent hroom

/-- In nine columns, with a line break hidden in the variant that is not taken. -/
theorem typeset_grouped_flat_call :
    let doc :=
      concat [text "f(", indent (concat [line .orNil, fill [text "a,", line .orSpace, text "b"]]),
        conditional [text ",", concat [line .hard, text ","]], ifBreak (text ",") suffixBoundary,
        text "c)"]
    0 < ({ printWidth := 9 } : LayoutOptions).indentWidth ∧ doc.willBreak = false ∧
      doc.suffixDepth = 0 ∧ doc.hasAlternatives = true ∧
      Text.widths doc.flatTexts ≤ ({ printWidth := 9 } : LayoutOptions).printWidth ∧
      doc.grouped.typeset { printWidth := 9 } = .ok "f(a, b,c)" :=
  have hindent : 0 < ({ printWidth := 9 } : LayoutOptions).indentWidth := by decide
  have hroom : Text.widths ["f(", "a,", " ", "b", ",", "c)"] ≤ 9 := by decide
  ⟨hindent, rfl, rfl, rfl, hroom,
    typeset_grouped_flat { printWidth := 9 } hindent rfl rfl rfl hroom⟩

end Doc

end Reflow
