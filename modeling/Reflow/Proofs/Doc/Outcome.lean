import Reflow.Doc.Typeset
import Reflow.Proofs.Layout.Outcome

/-!
# Proofs/Doc/Outcome — what a document may print

A document that holds nothing back prints its texts in order and, at its lines, a break or what
stands in its place.  `Doc.Prints` says so by recursion on the document and without a width;
`Doc.exists_typeset_eq` is what it is for: the text of such a document is one it may print.
-/

namespace Reflow

open Piece (IsBreak)

namespace Doc

/-- The characters a document **may print** in a group of the given mode.  A break and the choice by
the group go by the mode; a group inside, a part of a fill and a variant have modes of their own.
What is held back is not printed here. -/
inductive Prints : Mode → Doc → List Char → Prop
  | text (mode : Mode) (s : String) : Prints mode (text s) s.toList
  | nil (mode : Mode) : Prints mode (concat []) []
  | cons {mode : Mode} {doc : Doc} {docs : List Doc} {cs ds : List Char} (h : Prints mode doc cs)
      (hs : Prints mode (concat docs) ds) : Prints mode (concat (doc :: docs)) (cs ++ ds)
  | hard {run : List Char} (mode : Mode) (h : IsBreak run) : Prints mode (line .hard) run
  | break {run : List Char} (kind : LineKind) (h : IsBreak run) : Prints .broken (line kind) run
  | orSpace : Prints .flat (line .orSpace) [' ']
  | orNil : Prints .flat (line .orNil) []
  | indent {mode : Mode} {doc : Doc} {cs : List Char} (h : Prints mode doc cs) :
      Prints mode (indent doc) cs
  | group {mode : Mode} (inner : Mode) {shouldBreak : Bool} {doc : Doc} {cs : List Char}
      (h : Prints inner doc cs) : Prints mode (group shouldBreak doc) cs
  | fillNil (mode : Mode) : Prints mode (fill []) []
  | fillCons {mode : Mode} (inner : Mode) {doc : Doc} {docs : List Doc} {cs ds : List Char}
      (h : Prints inner doc cs) (hs : Prints mode (fill docs) ds) :
      Prints mode (fill (doc :: docs)) (cs ++ ds)
  | flat {broken flat : Doc} {cs : List Char} (h : Prints .flat flat cs) :
      Prints .flat (ifBreak broken flat) cs
  | broken {broken flat : Doc} {cs : List Char} (h : Prints .broken broken cs) :
      Prints .broken (ifBreak broken flat) cs
  | noVariant (mode : Mode) : Prints mode (conditional []) []
  | variant {mode : Mode} (inner : Mode) {variants : List Doc} {doc : Doc} {cs : List Char}
      (hdoc : doc ∈ variants) (h : Prints inner doc cs) : Prints mode (conditional variants) cs
  | suffixBoundary (mode : Mode) : Prints mode suffixBoundary []

/-- A text is no list, so what is appended to it stands **in a new one**. -/
theorem text_append (s : String) (doc : Doc) : text s ++ doc = concat [text s, doc] := rfl

theorem line_append (kind : LineKind) (doc : Doc) :
    line kind ++ doc = concat [line kind, doc] := rfl

section Inversion

variable {mode : Mode} {cs : List Char} {doc : Doc} {docs : List Doc}

@[simp] theorem prints_text {s : String} : (text s).Prints mode cs ↔ cs = s.toList := by
  constructor
  · rintro ⟨⟩
    rfl
  · rintro rfl
    exact .text mode s

@[simp] theorem prints_concat_nil : (concat []).Prints mode cs ↔ cs = [] := by
  constructor
  · rintro ⟨⟩
    rfl
  · rintro rfl
    exact .nil mode

/-- The first document prints a prefix, and **the others the rest**. -/
@[simp] theorem prints_concat_cons : (concat (doc :: docs)).Prints mode cs ↔
    ∃ xs ys, cs = xs ++ ys ∧ doc.Prints mode xs ∧ (concat docs).Prints mode ys := by
  constructor
  · rintro ⟨⟩
    exact ⟨_, _, rfl, ‹_›, ‹_›⟩
  · rintro ⟨xs, ys, rfl, h, hs⟩
    exact .cons h hs

@[simp] theorem prints_fill_nil : (fill []).Prints mode cs ↔ cs = [] := by
  constructor
  · rintro ⟨⟩
    rfl
  · rintro rfl
    exact .fillNil mode

/-- In a fill each part has **a mode of its own**, whatever that of the fill. -/
@[simp] theorem prints_fill_cons : (fill (doc :: docs)).Prints mode cs ↔
    ∃ inner xs ys, cs = xs ++ ys ∧ doc.Prints inner xs ∧ (fill docs).Prints mode ys := by
  constructor
  · rintro ⟨⟩
    exact ⟨_, _, _, rfl, ‹_›, ‹_›⟩
  · rintro ⟨inner, xs, ys, rfl, h, hs⟩
    exact .fillCons inner h hs

/-- A hard line is a break **in every mode**. -/
@[simp] theorem prints_hard : (line .hard).Prints mode cs ↔ IsBreak cs := by
  constructor
  · rintro (_ | _)
    · assumption
    · assumption
  · exact .hard mode

@[simp] theorem prints_line_broken {kind : LineKind} :
    (line kind).Prints .broken cs ↔ IsBreak cs := by
  constructor
  · rintro (_ | _)
    · assumption
    · assumption
  · exact .break kind

/-- The mode is the one **the choice goes by**, so it is known which branch prints. -/
@[simp] theorem prints_ifBreak_flat {broken flat : Doc} :
    (ifBreak broken flat).Prints .flat cs ↔ flat.Prints .flat cs := by
  constructor
  · rintro ⟨⟩
    assumption
  · exact .flat

@[simp] theorem prints_ifBreak_broken {broken flat : Doc} :
    (ifBreak broken flat).Prints .broken cs ↔ broken.Prints .broken cs := by
  constructor
  · rintro ⟨⟩
    assumption
  · exact .broken

@[simp] theorem prints_indent : (indent doc).Prints mode cs ↔ doc.Prints mode cs := by
  constructor
  · rintro ⟨⟩
    assumption
  · exact .indent

/-- A group has a mode of its own, of which **nothing is said** here: which it is, is
for the width to say. -/
@[simp] theorem prints_group {shouldBreak : Bool} :
    (group shouldBreak doc).Prints mode cs ↔ ∃ inner, doc.Prints inner cs := by
  constructor
  · rintro ⟨⟩
    exact ⟨_, ‹_›⟩
  · rintro ⟨inner, h⟩
    exact .group inner h

/-- Of variants **some one** prints, in some mode. -/
theorem prints_conditional_cons : (conditional (doc :: docs)).Prints mode cs ↔
    ∃ variant ∈ doc :: docs, ∃ inner, variant.Prints inner cs := by
  constructor
  · rintro ⟨⟩
    exact ⟨_, ‹_›, _, ‹_›⟩
  · rintro ⟨variant, hmem, inner, h⟩
    exact .variant inner hmem h

@[simp] theorem prints_suffixBoundary : suffixBoundary.Prints mode cs ↔ cs = [] := by
  constructor
  · rintro ⟨⟩
    rfl
  · rintro rfl
    exact .suffixBoundary mode

/-- One document after the other. -/
theorem prints_append {a b : Doc} :
    (a ++ b).Prints mode cs ↔ ∃ xs ys, cs = xs ++ ys ∧ a.Prints mode xs ∧ b.Prints mode ys := by
  have hlist (docs : List Doc) : (concat (docs ++ [b])).Prints mode cs ↔
      ∃ xs ys, cs = xs ++ ys ∧ (concat docs).Prints mode xs ∧ b.Prints mode ys := by
    induction docs generalizing cs with
    | nil =>
      simp only [List.nil_append, prints_concat_cons, prints_concat_nil]
      constructor
      · rintro ⟨ys, _, rfl, hy, rfl⟩
        exact ⟨[], ys, List.append_nil ys, rfl, hy⟩
      · rintro ⟨_, ys, rfl, rfl, hy⟩
        exact ⟨ys, [], (List.append_nil ys).symm, hy, rfl⟩
    | cons doc docs ih =>
      simp only [List.cons_append, prints_concat_cons, ih]
      constructor
      · rintro ⟨xs, _, rfl, hx, ys, zs, rfl, hy, hz⟩
        exact ⟨xs ++ ys, zs, (List.append_assoc ..).symm, ⟨xs, ys, rfl, hx, hy⟩, hz⟩
      · rintro ⟨_, zs, rfl, ⟨xs, ys, rfl, hx, hy⟩, hz⟩
        exact ⟨xs, ys ++ zs, List.append_assoc .., hx, ys, zs, rfl, hy, hz⟩
  have hpair : (concat [a, b]).Prints mode cs ↔
      ∃ xs ys, cs = xs ++ ys ∧ a.Prints mode xs ∧ b.Prints mode ys := by
    simp only [prints_concat_cons, prints_concat_nil]
    constructor
    · rintro ⟨xs, _, rfl, hx, ys, _, rfl, hy, rfl⟩
      exact ⟨xs, ys, by rw [List.append_nil], hx, hy⟩
    · rintro ⟨xs, ys, rfl, hx, hy⟩
      exact ⟨xs, ys, rfl, hx, ys, [], (List.append_nil ys).symm, hy, rfl⟩
  change (append a b).Prints mode cs ↔ _
  rw [append.eq_def]
  split
  · exact hlist _
  · exact hpair

end Inversion

namespace Prints

variable {mode : Mode} {cs : List Char}

/-- What the others may print they may print **behind one more variant**. -/
theorem later {variant : Doc} {others : List Doc} (h : Prints mode (conditional others) cs)
    (hne : others ≠ []) : Prints mode (conditional (variant :: others)) cs := by
  cases h with
  | noVariant => exact absurd rfl hne
  | variant inner hdoc h => exact .variant inner (List.mem_cons_of_mem variant hdoc) h

/-- Parts one after the other are parts of a fill. -/
theorem toFill {parts : List Doc} (h : Prints mode (concat parts) cs) (outer : Mode) :
    Prints outer (fill parts) cs := by
  induction parts generalizing cs with
  | nil =>
    cases h
    exact .fillNil outer
  | cons part parts ih =>
    cases h with
    | cons h hs => exact .fillCons mode h (ih hs)

end Prints

end Doc

/-- The mode of a group of which this is known, in a layout that is set in a mode. -/
def GroupState.modeIn : GroupState → Mode → Mode
  | flat, _ => .flat
  | broken, _ => .broken
  | undecided, mode => mode

/-- What comes of resolving in a state if **nothing is held back**: nothing is pending, and what the
layout may print satisfies `P` once it is written. -/
structure Resolved.Yields (o : LayoutOptions) (state : GroupState) (r : Resolved)
    (P : Mode → List Char → Prop) : Prop where
  pending : r.pending = []
  written {mode : Mode} {pieces : List Piece} (h : r.layout.MayPrint mode pieces) :
    P (state.modeIn mode) (pieces.flatMap (Piece.chars o))

namespace Resolved.Yields

variable {o : LayoutOptions} {state : GroupState} {r r' : Resolved}
  {P Q R : Mode → List Char → Prop}

/-- Only the modes in which the layout **can be set at all** in the state have to be considered. -/
theorem imp (h : r.Yields o state P)
    (hPQ : ∀ mode cs, P (state.modeIn mode) cs → Q (state.modeIn mode) cs) : r.Yields o state Q :=
  ⟨h.pending, fun hp => hPQ _ _ (h.written hp)⟩

/-- In another state all that is known is that there was a mode. -/
theorem someMode (h : r.Yields o state P) (outer : GroupState) :
    r.Yields o outer fun _ cs => ∃ inner, P inner cs :=
  ⟨h.pending, fun hp => ⟨_, h.written hp⟩⟩

/-- Indentation is not part of what is printed: a break prints **the blanks it likes**. -/
theorem nest (h : r.Yields o state P) (columns : Nat) :
    Yields o state ⟨.nest columns r.layout, r.pending⟩ P := by
  refine ⟨h.pending, ?_⟩
  rintro mode pieces ⟨⟩
  exact h.written ‹_›

/-- A group has a mode of its own. -/
theorem inGroup (h : r.Yields o state P) (outer : GroupState) :
    Yields o outer ⟨Doc.inGroup state r.layout, r.pending⟩ fun _ cs => ∃ inner, P inner cs := by
  cases state with
  | flat | broken => exact h.someMode outer
  | undecided =>
    refine ⟨h.pending, ?_⟩
    rintro mode pieces ⟨⟩
    exact ⟨_, h.written ‹_›⟩

/-- One result after the other prints one text after the other. -/
theorem seq (h : r.Yields o state P) (h' : r'.Yields o state Q)
    (hR : ∀ mode cs ds, P mode cs → Q mode ds → R mode (cs ++ ds)) :
    Yields o state ⟨.seq r.layout r'.layout, r'.pending⟩ R := by
  refine ⟨h'.pending, ?_⟩
  rintro mode pieces ⟨⟩
  rw [List.flatMap_append]
  exact hR _ _ _ (h.written ‹_›) (h'.written ‹_›)

/-- Of two layouts **either one** may be set. -/
theorem firstFit (h : r.Yields o state P) (h' : r'.Yields o state P) {pending : List Doc}
    (hnil : pending = []) : Yields o state ⟨.firstFit r.layout r'.layout, pending⟩ P := by
  refine ⟨hnil, ?_⟩
  rintro mode pieces (_ | _)
  · exact h.written ‹_›
  · exact h'.written ‹_›

end Resolved.Yields

namespace Doc

/-! ## Holding back -/

/-- A list holds back as deep as **its deepest document**. -/
theorem maxSuffixDepth_le_iff {docs : List Doc} {n : Nat} :
    maxSuffixDepth docs ≤ n ↔ ∀ doc ∈ docs, doc.suffixDepth ≤ n := by
  induction docs with
  | nil => simp [maxSuffixDepth]
  | cons doc docs ih => rw [maxSuffixDepth, Nat.max_le, ih, List.forall_mem_cons]

theorem maxSuffixDepth_eq_zero_iff (docs : List Doc) :
    maxSuffixDepth docs = 0 ↔ ∀ doc ∈ docs, doc.suffixDepth = 0 := by
  simp only [← Nat.le_zero, maxSuffixDepth_le_iff]

/-- Appending does not nest: what is held back stays **as deep as it was**. -/
theorem suffixDepth_append_le {a b : Doc} {n : Nat} (ha : a.suffixDepth ≤ n)
    (hb : b.suffixDepth ≤ n) : (a ++ b).suffixDepth ≤ n := by
  change (append a b).suffixDepth ≤ n
  rw [append.eq_def]
  split
  · rw [suffixDepth, maxSuffixDepth_le_iff] at ha ⊢
    exact List.forall_mem_append.mpr ⟨ha, List.forall_mem_singleton.mpr hb⟩
  · rw [suffixDepth, maxSuffixDepth_le_iff]
    exact List.forall_mem_cons.mpr ⟨ha, List.forall_mem_singleton.mpr hb⟩

theorem suffixDepth_append_eq_zero {a b : Doc} (ha : a.suffixDepth = 0) (hb : b.suffixDepth = 0) :
    (a ++ b).suffixDepth = 0 :=
  Nat.le_zero.mp (suffixDepth_append_le ha.le hb.le)

/-! ## Lines -/

/-- Nothing is pending, so before a break that is certain **nothing is flushed**, and it is printed
as a line or as an empty one. -/
theorem certainBreak_yields (o : LayoutOptions) (state : GroupState) (flush : Flush)
    (beforeBreak : Bool) :
    (certainBreak flush beforeBreak []).Yields o state fun _ => IsBreak := by
  rw [certainBreak, if_pos (by rfl)]
  refine ⟨rfl, fun hp => ?_⟩
  cases beforeBreak with
  | false =>
    cases hp
    simpa using Piece.isBreak_chars_newline o _
  | true =>
    cases hp
    simpa using Piece.isBreak_chars_blankLine o

/-- In a group that is undecided a soft line is **a break or what it is on one line**. -/
theorem resolveLine_yields (o : LayoutOptions) (flush : Flush) (state : GroupState)
    (kind : LineKind) (beforeBreak : Bool) :
    (resolveLine flush state kind beforeBreak []).Yields o state (Prints · (line kind)) := by
  rw [resolveLine.eq_def]
  split
  · exact (certainBreak_yields o state flush beforeBreak).imp fun mode _ => .hard _
  · exact (certainBreak_yields o .broken flush beforeBreak).imp fun mode _ => .break kind
  · refine ⟨rfl, ?_⟩
    rintro mode pieces ⟨⟩
    exact .orSpace
  · refine ⟨rfl, ?_⟩
    rintro mode pieces ⟨⟩
    exact .orNil
  · refine ⟨rfl, ?_⟩
    rintro mode pieces (_ | _)
    · exact .orSpace
    · simpa using .break _ (Piece.isBreak_chars_newline o _)
  · refine ⟨rfl, ?_⟩
    rintro mode pieces (_ | _)
    · exact .orNil
    · simpa using .break _ (Piece.isBreak_chars_newline o _)

theorem softBreak_yields (o : LayoutOptions) (state : GroupState) :
    Resolved.Yields o state ⟨.group (.softBreak 1), []⟩
      fun _ cs => ∃ inner, Prints inner (line .orSpace) cs :=
  (resolveLine_yields o (fun _ => ⟨.nil, []⟩) .undecided .orSpace false).inGroup state

/-- Only a line that is a space on one line is set as **a group of its own** in a fill. -/
theorem eq_orSpace_of_separatorKind {separator : Doc} (h : separator.separatorKind = .space) :
    separator = line .orSpace := by
  unfold separatorKind at h
  split at h
  · cases h
  · rfl
  · split_ifs at h

theorem eq_hard_of_separatorKind {separator : Doc} (h : separator.separatorKind = .hardLine) :
    separator = line .hard := by
  unfold separatorKind at h
  split at h
  · rfl
  · cases h
  · split_ifs at h

/-! ## Documents

By recursion on the document, one statement for each function of the resolver. -/

mutual

/-- **Resolving a document** that holds nothing back yields what it may print. -/
theorem resolve_yields (o : LayoutOptions) (flush : Flush) (indentWidth : Nat) (state : GroupState)
    (beforeBreak : Bool) (doc : Doc) (h : doc.suffixDepth = 0) :
    (resolve flush indentWidth state beforeBreak doc []).Yields o state (Prints · doc) := by
  match doc with
  | text s =>
    refine ⟨rfl, ?_⟩
    rintro mode pieces ⟨⟩
    simp [Piece.chars]
  | concat docs => exact resolveAll_yields o flush indentWidth state docs h
  | line kind => exact resolveLine_yields o flush state kind beforeBreak
  | indent contents =>
    exact ((resolve_yields o flush indentWidth state false contents h).nest indentWidth).imp
      fun _ _ => .indent
  | group shouldBreak contents =>
    exact ((resolve_yields o flush indentWidth _ false contents h).inGroup state).imp
      fun _ _ ⟨inner, hp⟩ => .group inner hp
  | fill parts =>
    cases state with
    | flat =>
      exact (resolveAll_yields o flush indentWidth .flat parts h).imp fun _ _ hp => hp.toFill _
    | broken | undecided => exact fillFromContent_yields o flush indentWidth _ parts h
  | ifBreak broken flat =>
    rw [suffixDepth, Nat.max_eq_zero_iff] at h
    have hflat := resolve_yields o flush indentWidth .flat false flat h.2
    cases state with
    | flat => exact hflat.imp fun _ _ => .flat
    | broken =>
      exact (resolve_yields o flush indentWidth .broken false broken h.1).imp fun _ _ => .broken
    | undecided =>
      have hbroken := resolve_yields o flush indentWidth .undecided false broken h.1
      rw [resolve, hflat.pending]
      refine ⟨hbroken.pending, ?_⟩
      rintro mode pieces (_ | _)
      · exact .flat (hflat.written ‹_›)
      · exact .broken (hbroken.written ‹_›)
  | conditional variants =>
    cases state with
    | flat => exact resolveFirst_yields o flush indentWidth _ variants h
    | broken | undecided => exact resolveVariants_yields o flush indentWidth _ variants h
  | lineSuffix contents => exact absurd h (Nat.succ_ne_zero _)
  | suffixBoundary =>
    refine ⟨rfl, ?_⟩
    rintro mode pieces ⟨⟩
    exact .suffixBoundary _

theorem resolveAll_yields (o : LayoutOptions) (flush : Flush) (indentWidth : Nat)
    (state : GroupState) (docs : List Doc) (h : maxSuffixDepth docs = 0) :
    (resolveAll flush indentWidth state docs []).Yields o state (Prints · (concat docs)) := by
  match docs with
  | [] =>
    refine ⟨rfl, ?_⟩
    rintro mode pieces ⟨⟩
    exact .nil _
  | doc :: docs =>
    rw [maxSuffixDepth, Nat.max_eq_zero_iff] at h
    have hhere := resolve_yields o flush indentWidth state (nextIsBreak state docs) doc h.1
    simp only [resolveAll, hhere.pending]
    exact hhere.seq (resolveAll_yields o flush indentWidth state docs h.2) fun _ _ _ => .cons

theorem fillFromContent_yields (o : LayoutOptions) (flush : Flush) (indentWidth : Nat)
    (state : GroupState) (parts : List Doc) (h : maxSuffixDepth parts = 0) :
    (fillFromContent flush indentWidth parts []).Yields o state (Prints · (fill parts)) := by
  match parts with
  | [] =>
    refine ⟨rfl, ?_⟩
    rintro mode pieces ⟨⟩
    exact .fillNil _
  | content :: parts =>
    rw [maxSuffixDepth, Nat.max_eq_zero_iff] at h
    have hhere := resolve_yields o flush indentWidth (innerState .undecided content.willBreak) false
      content h.1
    simp only [fillFromContent, hhere.pending]
    exact (hhere.inGroup state).seq (fillFromSeparator_yields o flush indentWidth state parts h.2)
      fun _ _ _ ⟨inner, hp⟩ => .fillCons inner hp

/-- Whichever way a separator is resolved, it prints **in a mode of its own**, as a
part of a fill does. -/
theorem fillFromSeparator_yields (o : LayoutOptions) (flush : Flush) (indentWidth : Nat)
    (state : GroupState) (parts : List Doc) (h : maxSuffixDepth parts = 0) :
    (fillFromSeparator flush indentWidth parts []).Yields o state (Prints · (fill parts)) := by
  match parts with
  | [] =>
    refine ⟨rfl, ?_⟩
    rintro mode pieces ⟨⟩
    exact .fillNil _
  | separator :: parts =>
    rw [maxSuffixDepth, Nat.max_eq_zero_iff] at h
    have hlater := fillFromContent_yields o flush indentWidth state parts h.2
    have hflat := resolve_yields o flush indentWidth .flat false separator h.1
    have hbroken := resolve_yields o flush indentWidth .broken false separator h.1
    rw [fillFromSeparator.eq_def]
    cases hkind : separator.separatorKind with
    | hardLine =>
      obtain rfl := eq_hard_of_separatorKind hkind
      have hhere := certainBreak_yields o state flush (nextIsBreak .undecided parts)
      simp only [hkind, hhere.pending]
      exact hhere.seq hlater fun mode _ _ hp => .fillCons mode (.hard mode hp)
    | breaking =>
      simp only [hkind, hbroken.pending]
      exact (hbroken.someMode state).seq hlater fun _ _ _ ⟨inner, hp⟩ => .fillCons inner hp
    | space =>
      obtain rfl := eq_orSpace_of_separatorKind hkind
      simp only [hkind]
      exact (softBreak_yields o state).seq hlater fun _ _ _ ⟨inner, hp⟩ => .fillCons inner hp
    | other =>
      simp only [hkind, hflat.pending, hbroken.pending]
      exact ((hflat.someMode state).firstFit (hbroken.someMode state) rfl).seq hlater
        fun _ _ _ ⟨inner, hp⟩ => .fillCons inner hp

/-- Variants before the last are tried flat, unless they are bound to break, and **the
last one is broken**. -/
theorem resolveVariants_yields (o : LayoutOptions) (flush : Flush) (indentWidth : Nat)
    (state : GroupState) (variants : List Doc) (h : maxSuffixDepth variants = 0) :
    (resolveVariants flush indentWidth variants []).Yields o state
      (Prints · (conditional variants)) := by
  match variants with
  | [] =>
    refine ⟨rfl, ?_⟩
    rintro mode pieces ⟨⟩
    exact .noVariant _
  | variant :: others =>
    rw [maxSuffixDepth, Nat.max_eq_zero_iff] at h
    by_cases hlast : others.isEmpty
    · rw [resolveVariants, if_pos hlast]
      exact ((resolve_yields o flush indentWidth .broken false variant h.1).someMode state).imp
        fun _ _ ⟨inner, hp⟩ => .variant inner List.mem_cons_self hp
    · have hothers : Resolved.Yields o state (resolveVariants flush indentWidth others [])
          (Prints · (conditional (variant :: others))) :=
        (resolveVariants_yields o flush indentWidth state others h.2).imp
          fun _ _ hp => hp.later (by simpa using hlast)
      have hfirst : Resolved.Yields o state (resolve flush indentWidth .flat false variant [])
          (Prints · (conditional (variant :: others))) :=
        ((resolve_yields o flush indentWidth .flat false variant h.1).someMode state).imp
          fun _ _ ⟨inner, hp⟩ => .variant inner List.mem_cons_self hp
      rw [resolveVariants, if_neg hlast]
      by_cases hbreaks : variant.willBreak
      · rw [if_pos hbreaks]
        exact hothers
      · rw [if_neg hbreaks, hothers.pending]
        exact hfirst.firstFit hothers hfirst.pending

theorem resolveFirst_yields (o : LayoutOptions) (flush : Flush) (indentWidth : Nat)
    (state : GroupState) (variants : List Doc) (h : maxSuffixDepth variants = 0) :
    (resolveFirst flush indentWidth variants []).Yields o state
      (Prints · (conditional variants)) := by
  match variants with
  | [] =>
    refine ⟨rfl, ?_⟩
    rintro mode pieces ⟨⟩
    exact .noVariant _
  | variant :: _ =>
    rw [maxSuffixDepth, Nat.max_eq_zero_iff] at h
    exact ((resolve_yields o flush indentWidth .flat false variant h.1).someMode state).imp
      fun _ _ ⟨inner, hp⟩ => .variant inner List.mem_cons_self hp

end

/-- **Typesetting** a document that holds nothing back gives a text it may print. -/
theorem exists_typeset_eq (o : LayoutOptions) (doc : Doc) (h : doc.suffixDepth = 0)
    (hindent : 0 < o.indentWidth) :
    ∃ output, doc.typeset o = .ok output ∧ doc.Prints .broken output.toList := by
  have hwhole :=
    resolve_yields o (flushAt o.indentWidth doc.suffixDepth) o.indentWidth .broken false
    doc h
  refine ⟨Piece.write o (doc.pieces o), by rw [typeset, if_neg (by omega)], ?_⟩
  rw [Piece.toList_write, pieces, layout, if_pos (by simp [hwhole.pending])]
  exact hwhole.written (Layout.pieces_mayPrint ..)

end Doc

end Reflow
