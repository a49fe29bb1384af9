import Reflow.Proofs.Doc.Depth
import Reflow.Proofs.Layout.Neat

/-!
# Proofs/Doc/Neat — documents that end no line with blanks

A document is **neat** between two edges of a line, in flat or in broken groups, if each of its
lines is set at a clean edge (`Doc.Neat`).  Four things do not go by the edge alone: a hard line
before another one is not indented, a soft line between two contents of a fill is never broken, a
space is no line on one line, and a remark held back for the end of the line cleans the edge before
the line breaks.  What a neat document is typeset as has no blanks in front of a line break
(`Doc.Neat.not_endsBlank`).
-/

namespace Reflow

open Text (IsSolid edgeAfter)

/-! ## Remarks -/

namespace Doc

/-- A **remark**: a text behind a space. -/
def IsRemark (doc : Doc) : Prop := ∃ s, IsSolid s ∧ doc = text " " ++ text s

def AllRemarks (pending : List Doc) : Prop := ∀ doc ∈ pending, doc.IsRemark

theorem allRemarks_nil : AllRemarks [] := nofun

end Doc

/-- What is resolved is **neat between two edges** in a layout of the given mode, and only remarks
are pending. -/
structure Resolved.IsNeat (mode : Mode) (d : Edge) (r : Resolved) (e : Edge) : Prop where
  layout : r.layout.Neat mode d e
  pending : Doc.AllRemarks r.pending

namespace Resolved.IsNeat

variable {mode : Mode} {d d' m e e' : Edge} {r r' : Resolved}

theorem mono (h : r.IsNeat mode d e) (hd : d' ≤ d) (he : e ≤ e') : r.IsNeat mode d' e' :=
  ⟨h.layout.mono hd he, h.pending⟩

theorem seq (h : r.IsNeat mode d m) (h' : r'.IsNeat mode m e) :
    IsNeat mode d ⟨.seq r.layout r'.layout, r'.pending⟩ e := ⟨h.layout.seq h'.layout, h'.pending⟩

end Resolved.IsNeat

namespace Doc

/-- What is flushed of remarks is set at any edge and **leaves a clean one**. -/
structure Flush.IsNeat (flush : Flush) : Prop where
  layout {pending : List Doc} (h : AllRemarks pending) (some : pending ≠ []) (mode : Mode) :
    (flush pending).layout.Neat mode .ragged .clean
  pending {pending : List Doc} (h : AllRemarks pending) : AllRemarks (flush pending).pending

theorem isNeat_flushAt (indentWidth depth : Nat) : (flushAt indentWidth (depth + 1)).IsNeat := by
  have hremark (mode : Mode) (d : Edge) {doc : Doc} (h : doc.IsRemark) (flush : Flush) :
      (resolve flush indentWidth .flat false doc []).IsNeat mode d .clean ∧
        (resolve flush indentWidth .flat false doc []).pending = [] := by
    obtain ⟨s, hs, rfl⟩ := h
    have hspace := Layout.neat_text (show '\n' ∉ " ".toList by decide) mode d
    have htext := Layout.neat_text hs.oneLine mode (edgeAfter d " ")
    rw [hs.edgeAfter] at htext
    exact ⟨⟨hspace.seq (htext.seq (Layout.neat_nil mode .clean)), allRemarks_nil⟩, rfl⟩
  have heach (flush : Flush) (mode : Mode) {pending : List Doc} (h : AllRemarks pending)
      (d : Edge) :
      (resolveEach flush indentWidth pending []).IsNeat mode d
        (if pending = [] then d else .clean) := by
    induction pending generalizing d with
    | nil => exact ⟨Layout.neat_nil mode d, allRemarks_nil⟩
    | cons doc pending ih =>
      obtain ⟨hdoc, hpending⟩ := List.forall_mem_cons.mp h
      obtain ⟨hhere, hnone⟩ := hremark mode d hdoc flush
      rw [resolveEach, hnone, if_neg (List.cons_ne_nil doc pending)]
      refine hhere.seq ((ih hpending .clean).mono (Edge.le_refl _) ?_)
      split_ifs <;> exact Edge.le_refl _
  refine ⟨fun {pending} h some mode => ?_, fun h => (heach _ .flat h .clean).pending⟩
  have hneat := heach (flushAt indentWidth depth) mode h .ragged
  rw [if_neg some] at hneat
  exact hneat.layout

section Lines

variable {flush : Flush} {mode : Mode} {d : Edge} {pending : List Doc}

/-- A certain line break needs a clean edge, **or something to clean it with**. -/
theorem isNeat_certainBreak (hflush : flush.IsNeat) (beforeBreak : Bool) (hp : AllRemarks pending)
    (hd : pending = [] → d = .clean) :
    (certainBreak flush beforeBreak pending).IsNeat mode d
      (if beforeBreak then .clean else .ragged) := by
  have hmark : (if beforeBreak then Layout.blankLine else .newline).Neat mode .clean
      (if beforeBreak then .clean else .ragged) := by
    split_ifs
    · exact Layout.neat_blankLine mode
    · exact Layout.neat_newline mode
  cases pending with
  | nil => exact ⟨hd rfl ▸ hmark, allRemarks_nil⟩
  | cons doc pending =>
    have hflushed :=
      (hflush.layout hp (List.cons_ne_nil _ _) mode).mono (Edge.le_ragged d) (Edge.le_refl _)
    exact ⟨hflushed.seq hmark, hflush.pending hp⟩

theorem isNeat_certainBreak_ragged (hflush : flush.IsNeat) (beforeBreak : Bool)
    (hp : AllRemarks pending) (hd : pending = [] → d = .clean) :
    (certainBreak flush beforeBreak pending).IsNeat mode d .ragged :=
  (isNeat_certainBreak hflush beforeBreak hp hd).mono (Edge.le_refl _) (Edge.le_ragged _)

/-- A line at a clean edge **leaves the indentation behind it**, or less. -/
theorem isNeat_resolveLine (hflush : flush.IsNeat) (state : GroupState) (kind : LineKind)
    (beforeBreak : Bool) (hp : AllRemarks pending) :
    (resolveLine flush state kind beforeBreak pending).IsNeat mode .clean .ragged := by
  have hcertain : (certainBreak flush beforeBreak pending).IsNeat mode .clean .ragged :=
    isNeat_certainBreak_ragged hflush beforeBreak hp fun _ => rfl
  have hsoft (n : Nat) : (Layout.softBreak n).Neat mode .clean .ragged := by
    cases mode with
    | flat => exact Layout.neat_softBreak_flat n .clean
    | broken => exact Layout.neat_softBreak_broken n
  cases state with
  | broken => cases kind <;> exact hcertain
  | flat =>
    cases kind with
    | hard => exact hcertain
    | orSpace => exact ⟨Layout.neat_text (by decide) mode .clean, hp⟩
    | orNil => exact ⟨(Layout.neat_nil mode .clean).mono (Edge.le_refl _) (Edge.le_ragged _), hp⟩
  | undecided =>
    cases kind with
    | hard => exact hcertain
    | orSpace | orNil => exact ⟨hsoft _, hp⟩

theorem isNeat_resolveBoundary (hflush : flush.IsNeat) (hp : AllRemarks pending) (d : Edge) :
    (resolveBoundary flush pending).IsNeat mode d .ragged := by
  cases pending with
  | nil => exact ⟨(Layout.neat_nil mode d).mono (Edge.le_refl _) (Edge.le_ragged _), allRemarks_nil⟩
  | cons => exact isNeat_certainBreak_ragged hflush false hp nofun

end Lines

/-! ## Neat documents -/

/-- A document that is **neat between two edges**, where the lines directly in its group are all
flat or all broken. -/
inductive Neat : Mode → Edge → Doc → Edge → Prop
  | weaken {mode : Mode} {d d' e e' : Edge} {doc : Doc} (hd : d' ≤ d) (he : e ≤ e')
      (h : Neat mode d doc e) : Neat mode d' doc e'
  | text (mode : Mode) (d : Edge) {s : String} (oneLine : '\n' ∉ s.toList) :
      Neat mode d (text s) (edgeAfter d s)
  | line (mode : Mode) (kind : LineKind) : Neat mode .clean (line kind) .ragged
  | space (d : Edge) : Neat .flat d (line .orSpace) .ragged
  | noSpace (d : Edge) : Neat .flat d (line .orNil) d
  | suffixBoundary (mode : Mode) (d : Edge) : Neat mode d suffixBoundary .ragged
  | lineSuffix (mode : Mode) (d : Edge) {doc : Doc} (h : doc.IsRemark) :
      Neat mode d (lineSuffix doc) d
  | nil (mode : Mode) (d : Edge) : Neat mode d (concat []) d
  | cons {mode : Mode} {d m e : Edge} {doc : Doc} {docs : List Doc} (h : Neat mode d doc m)
      (h' : Neat mode m (concat docs) e) : Neat mode d (concat (doc :: docs)) e
  /-- The break of an empty line: it is not indented. -/
  | blank {mode : Mode} {e : Edge} {docs : List Doc} (next : nextIsBreak .flat docs = true)
      (h : Neat mode .clean (concat docs) e) : Neat mode .clean (concat (.line .hard :: docs)) e
  | indent {mode : Mode} {d e : Edge} {doc : Doc} (h : Neat mode d doc e) :
      Neat mode d (indent doc) e
  | flatGroup {d e : Edge} (shouldBreak : Bool) {doc : Doc} (h : Neat .flat d doc e) :
      Neat .flat d (group shouldBreak doc) e
  | group {mode : Mode} {d e : Edge} (shouldBreak : Bool) {doc : Doc} (h : Neat .flat d doc e)
      (h' : Neat .broken d doc e) : Neat mode d (group shouldBreak doc) e
  | ifFlat {d d' e e' : Edge} {broken flat : Doc} (h : Neat .flat d flat e)
      (h' : Neat .broken d' broken e') : Neat .flat d (ifBreak broken flat) e
  | ifBroken {d d' e e' : Edge} {broken flat : Doc} (h : Neat .flat d' flat e')
      (h' : Neat .broken d broken e) : Neat .broken d (ifBreak broken flat) e
  | fillNil (mode : Mode) (d : Edge) : Neat mode d (fill []) d
  | fillLast {mode : Mode} {d e : Edge} {content : Doc} (h : Neat .flat d content e)
      (h' : Neat .broken d content e) : Neat mode d (fill [content]) e
  | fill {mode : Mode} {d m n e : Edge} {content separator : Doc} {parts : List Doc}
      (hc : Neat .flat d content m) (hc' : Neat .broken d content m) (hs : Neat .flat m separator n)
      (hs' : Neat .broken m separator n) (h : Neat mode n (fill parts) e) :
      Neat mode d (fill (content :: separator :: parts)) e
  /-- A soft line between two contents is nothing, unless something is held back. -/
  | fillSoft {mode : Mode} {d m e : Edge} {content : Doc} {parts : List Doc}
    (hc : Neat .flat d content m)
      (hc' : Neat .broken d content m) (h : Neat mode .ragged (fill parts) e) :
      Neat mode d (fill (content :: .line .orNil :: parts)) e
  | conditional (mode : Mode) {d e : Edge} {attempt fallback : Doc} (h : Neat .flat d attempt e)
      (h' : Neat .broken d fallback e) : Neat mode d (conditional [attempt, fallback]) e

/-! ## Putting neat documents together -/

namespace Neat

variable {mode : Mode} {d m e : Edge}

theorem concat_append {docs others : List Doc} (h : (concat docs).Neat mode d m)
    (h' : (concat others).Neat mode m e) : (concat (docs ++ others)).Neat mode d e := by
  generalize hdoc : concat docs = doc at h
  induction h generalizing docs with
  | weaken hd he _ ih =>
    exact .weaken hd (Edge.le_refl _) (ih (.weaken he (Edge.le_refl _) h') hdoc)
  | nil =>
    obtain rfl : docs = [] := Doc.concat.inj hdoc
    exact h'
  | @cons _ _ _ _ doc rest hhere _ _ ih =>
    obtain rfl : docs = doc :: rest := Doc.concat.inj hdoc
    exact .cons hhere (ih h' rfl)
  | @blank _ _ rest next _ ih =>
    obtain rfl : docs = .line .hard :: rest := Doc.concat.inj hdoc
    have hnext : nextIsBreak .flat (rest ++ others) = true := by
      unfold nextIsBreak at next ⊢
      rw [List.find?_append]
      cases hfind : rest.find? fun doc => !doc.isEmpty with
      | none =>
        rw [hfind] at next
        cases next
      | some doc =>
        rw [hfind] at next
        exact next
    exact .blank hnext (ih h' rfl)
  | text | line | space | noSpace | suffixBoundary | lineSuffix | indent | flatGroup | group
  | ifFlat | ifBroken | fillNil | fillLast | fill | fillSoft | conditional => cases hdoc

theorem append {doc other : Doc} (h : doc.Neat mode d m) (h' : other.Neat mode m e) :
    (doc ++ other).Neat mode d e := by
  have hother : (concat [other]).Neat mode m e := .cons h' (.nil mode e)
  cases doc with
  | concat docs => exact h.concat_append hother
  | text | line | indent | group | fill | ifBreak | conditional | lineSuffix | suffixBoundary =>
    exact .cons h hother

theorem singleton {doc : Doc} (h : doc.Neat mode d e) : (concat [doc]).Neat mode d e :=
  .cons h (.nil mode e)

theorem empty (mode : Mode) (d : Edge) : (Doc.text "").Neat mode d d := .text mode d (by decide)

end Neat

/-- A document that is set at any edge and **leaves a clean one**. -/
def IsSolid (doc : Doc) : Prop := ∀ mode, doc.Neat mode .ragged .clean

namespace IsSolid

variable {doc : Doc}

theorem neat (h : doc.IsSolid) (mode : Mode) (d : Edge) : doc.Neat mode d .clean :=
  .weaken (Edge.le_ragged d) (Edge.le_refl _) (h mode)

theorem text {s : String} (h : Text.IsSolid s) : (Doc.text s).IsSolid := fun mode =>
  h.edgeAfter .ragged ▸ Neat.text mode .ragged h.oneLine

theorem group (h : doc.IsSolid) (shouldBreak : Bool) : (Doc.group shouldBreak doc).IsSolid :=
  fun _ => .group shouldBreak (h .flat) (h .broken)

end IsSolid

/-! ## Fills that end with a content -/

section Filled

variable {mode : Mode} {d m n e : Edge} {content separator : Doc} {docs : List Doc}

/-- A content and a separator in front do not change **how a fill is filled up**. -/
theorem exists_filled_cons (content separator : Doc) (h : docs ≠ []) :
    ∃ parts, filled docs = fill parts ∧
      filled (content :: separator :: docs) = fill (content :: separator :: parts) := by
  have hlength : (content :: separator :: docs).length % 2 = docs.length % 2 := by
    rw [List.length_cons, List.length_cons]
    omega
  rw [filled, filled, hlength, List.isEmpty_cons, List.isEmpty_eq_false_iff.mpr h]
  split_ifs
  · exact ⟨_, rfl, rfl⟩
  · exact ⟨_, rfl, rfl⟩

theorem Neat.filled_cons (hne : docs ≠ []) (hcontent : ∀ mode, content.Neat mode d m)
    (hseparator : ∀ mode, separator.Neat mode m n) (h : (filled docs).Neat mode n e) :
    (filled (content :: separator :: docs)).Neat mode d e := by
  obtain ⟨parts, hdocs, hfilled⟩ := exists_filled_cons content separator hne
  rw [hdocs] at h
  rw [hfilled]
  exact .fill (hcontent .flat) (hcontent .broken) (hseparator .flat) (hseparator .broken) h

/-- Between two contents a soft line is **never broken**, so it needs no clean edge. -/
theorem Neat.filled_soft (hne : docs ≠ []) (hcontent : ∀ mode, content.Neat mode d m)
    (h : (filled docs).Neat mode .ragged e) :
    (filled (content :: .line .orNil :: docs)).Neat mode d e := by
  obtain ⟨parts, hdocs, hfilled⟩ := exists_filled_cons content (.line .orNil) hne
  rw [hdocs] at h
  rw [hfilled]
  exact .fillSoft (hcontent .flat) (hcontent .broken) h

/-- A content alone. -/
theorem Neat.filled_last (hcontent : ∀ mode, content.Neat mode d e) :
    (filled [content]).Neat mode d e :=
  .fillLast (hcontent .flat) (hcontent .broken)

/-- A separator at the end gets **an empty content** behind it. -/
theorem Neat.filled_pair (hcontent : ∀ mode, content.Neat mode d m)
    (hseparator : ∀ mode, separator.Neat mode m e) :
    (filled [content, separator]).Neat mode d e := by
  have hfilled : filled [content, separator] = Doc.fill [content, separator, Doc.text ""] := by
    simp [filled]
  rw [hfilled]
  exact .fill (hcontent .flat) (hcontent .broken) (hseparator .flat) (hseparator .broken)
    (.fillLast (.empty .flat e) (.empty .broken e))

end Filled

/-! ## Neat documents are typeset neatly -/

/-- Where a line break is sure to follow in a flat group, it is **anywhere**. -/
theorem nextIsBreak_of_flat {docs : List Doc} (h : nextIsBreak .flat docs = true)
    (state : GroupState) : nextIsBreak state docs = true := by
  unfold nextIsBreak at h ⊢
  cases hfind : docs.find? fun doc => !doc.isEmpty with
  | none =>
    rw [hfind] at h
    cases h
  | some doc =>
    rw [hfind] at h
    cases doc with
    | line kind =>
      cases kind with
      | hard => rfl
      | orSpace | orNil => cases h
    | text | concat | indent | group | fill | ifBreak | conditional | lineSuffix | suffixBoundary =>
      cases h

/-- A document that is neat **wherever it is resolved** so that its lines come out
in the given mode. -/
def ResolvesNeat (flush : Flush) (indentWidth : Nat) (inside : Mode) (d : Edge) (doc : Doc)
    (e : Edge) : Prop :=
  ∀ (state : GroupState) (mode : Mode), state.modeIn mode = inside →
    (state = .undecided → doc.willBreak = false) → ∀ (beforeBreak : Bool) {pending : List Doc},
      AllRemarks pending → (resolve flush indentWidth state beforeBreak doc pending).IsNeat mode d e

namespace ResolvesNeat

variable {flush : Flush} {indentWidth : Nat} {d e : Edge} {doc : Doc}

theorem flat (h : ResolvesNeat flush indentWidth .flat d doc e) (mode : Mode) (beforeBreak : Bool)
    {pending : List Doc} (hp : AllRemarks pending) :
    (resolve flush indentWidth .flat beforeBreak doc pending).IsNeat mode d e :=
  h .flat mode rfl (fun heq => by cases heq) beforeBreak hp

theorem broken (h : ResolvesNeat flush indentWidth .broken d doc e) (mode : Mode)
    (beforeBreak : Bool) {pending : List Doc} (hp : AllRemarks pending) :
    (resolve flush indentWidth .broken beforeBreak doc pending).IsNeat mode d e :=
  h .broken mode rfl (fun heq => by cases heq) beforeBreak hp

/-- A group **that is not in a flat one**. -/
theorem inGroup (h : ResolvesNeat flush indentWidth .flat d doc e)
    (h' : ResolvesNeat flush indentWidth .broken d doc e) {boundToBreak : Bool}
    (hbound : boundToBreak = false → doc.willBreak = false) {pending : List Doc}
    (hp : AllRemarks pending) (mode : Mode) :
    let inside := innerState .undecided boundToBreak
    let inner := resolve flush indentWidth inside false doc pending
    Resolved.IsNeat mode d ⟨Doc.inGroup inside inner.layout, inner.pending⟩ e := by
  cases boundToBreak with
  | true => exact h'.broken mode false hp
  | false =>
    have hflat := h .undecided .flat rfl (fun _ => hbound rfl) false hp
    have hbroken := h' .undecided .broken rfl (fun _ => hbound rfl) false hp
    exact ⟨hflat.layout.group hbroken.layout mode, hflat.pending⟩

/-- A **separator**, tried flat or broken. -/
theorem separator (h : ResolvesNeat flush indentWidth .flat d doc e)
    (h' : ResolvesNeat flush indentWidth .broken d doc e) (beforeBreak : Bool) {pending : List Doc}
    (hp : AllRemarks pending) (mode : Mode) :
    (resolveSeparator flush indentWidth beforeBreak doc pending).IsNeat mode d e := by
  have hbroken := h'.broken mode false hp
  cases hkind : doc.separatorKind with
  | hardLine =>
    obtain rfl := eq_hard_of_separatorKind hkind
    exact h'.broken mode beforeBreak hp
  | breaking =>
    simp only [resolveSeparator, hkind]
    exact hbroken
  | space =>
    cases pending with
    | nil =>
      obtain rfl := eq_orSpace_of_separatorKind hkind
      exact @inGroup _ _ _ _ _ h h' false (fun _ => rfl) [] hp mode
    | cons =>
      simp only [resolveSeparator, hkind]
      exact hbroken
  | other =>
    cases pending with
    | nil =>
      have hflat := h.flat mode false hp
      have hlater := h'.broken mode false hflat.pending
      simp only [resolveSeparator, hkind]
      exact ⟨hflat.layout.firstFit hlater.layout, hlater.pending⟩
    | cons =>
      simp only [resolveSeparator, hkind]
      exact hbroken

end ResolvesNeat

/-- The soft line of a fill is **nothing**, or the end of a line that is cleaned first. -/
theorem isNeat_resolveSeparator_orNil {flush : Flush} (hflush : flush.IsNeat) (indentWidth : Nat)
    (beforeBreak : Bool) {pending : List Doc} (hp : AllRemarks pending) (mode : Mode) (d : Edge) :
    (resolveSeparator flush indentWidth beforeBreak (line .orNil) pending).IsNeat mode d
      .ragged := by
  cases pending with
  | nil =>
    exact ⟨(Layout.neat_firstFit_nil _ mode d).mono (Edge.le_refl _) (Edge.le_ragged _),
      allRemarks_nil⟩
  | cons => exact isNeat_certainBreak_ragged hflush false hp nofun

/-- A neat document **is resolved neatly**. -/
theorem Neat.resolves {flush : Flush} (hflush : flush.IsNeat) (indentWidth : Nat) {inside : Mode}
    {d e : Edge} {doc : Doc} (h : doc.Neat inside d e) :
    ResolvesNeat flush indentWidth inside d doc e := by
  induction h with
  | weaken hd he _ ih =>
    exact fun state mode hmode hbound beforeBreak _ hp =>
      (ih state mode hmode hbound beforeBreak hp).mono hd he
  | text _ d oneLine => exact fun _ mode _ _ _ _ hp => ⟨Layout.neat_text oneLine mode d, hp⟩
  | line _ kind =>
    exact fun state mode _ _ beforeBreak _ hp => isNeat_resolveLine hflush state kind beforeBreak hp
  | space d =>
    intro state mode hmode _ _ _ hp
    cases state with
    | flat => exact ⟨Layout.neat_text (by decide) mode d, hp⟩
    | broken => cases hmode
    | undecided =>
      obtain rfl : mode = .flat := hmode
      exact ⟨Layout.neat_softBreak_flat 1 d, hp⟩
  | noSpace d =>
    intro state mode hmode _ _ _ hp
    cases state with
    | flat => exact ⟨Layout.neat_nil mode d, hp⟩
    | broken => cases hmode
    | undecided =>
      obtain rfl : mode = .flat := hmode
      exact ⟨Layout.neat_noSpace_flat d, hp⟩
  | suffixBoundary _ d => exact fun _ _ _ _ _ _ hp => isNeat_resolveBoundary hflush hp d
  | lineSuffix _ d h =>
    exact fun _ mode _ _ _ _ hp => ⟨Layout.neat_nil mode d,
      List.forall_mem_append.mpr ⟨hp, List.forall_mem_singleton.mpr h⟩⟩
  | nil _ d => exact fun _ mode _ _ _ _ hp => ⟨Layout.neat_nil mode d, hp⟩
  | @cons _ _ _ _ doc docs _ _ ih ih' =>
    intro state mode hmode hbound _ _ hp
    have hparts := fun h => Bool.or_eq_false_iff.mp (hbound h)
    have hhere := ih state mode hmode (fun h => (hparts h).1) (nextIsBreak state docs) hp
    exact hhere.seq (ih' state mode hmode (fun h => (hparts h).2) false hhere.pending)
  | @blank _ _ docs next _ ih =>
    intro state mode hmode hbound _ pending hp
    have hbreak :
        (certainBreak flush (nextIsBreak state docs) pending).IsNeat mode .clean .clean := by
      have h := @isNeat_certainBreak _ mode _ _ hflush true hp fun _ => rfl
      rw [nextIsBreak_of_flat next]
      exact h
    have hrest : state = .undecided → (Doc.concat docs).willBreak = false := fun h =>
      absurd (hbound h) (by simp [willBreak, anyWillBreak])
    exact hbreak.seq (ih state mode hmode hrest false hbreak.pending)
  | indent _ ih =>
    intro state mode hmode hbound _ _ hp
    have hinner := ih state mode hmode hbound false hp
    exact ⟨hinner.layout.nest indentWidth, hinner.pending⟩
  | flatGroup shouldBreak _ ih =>
    intro state mode hmode hbound _ pending hp
    cases state with
    | flat => exact ih.flat mode false hp
    | broken => cases hmode
    | undecided =>
      obtain rfl : mode = .flat := hmode
      have hnone := hbound rfl
      have hinner := ih .undecided .flat rfl (fun _ => (Bool.or_eq_false_iff.mp hnone).2) false hp
      rw [resolve, show (shouldBreak || _) = false from hnone]
      exact ⟨hinner.layout.group_flat, hinner.pending⟩
  | group shouldBreak _ _ ih ih' =>
    intro state mode hmode hbound _ pending hp
    have hinside {boundToBreak : Bool} := @ResolvesNeat.inGroup _ _ _ _ _ ih ih' boundToBreak
    cases state with
    | flat => exact ih.flat mode false hp
    | broken | undecided => exact hinside (fun h => (Bool.or_eq_false_iff.mp h).2) hp mode
  | ifFlat _ _ ih ih' =>
    intro state mode hmode hbound _ pending hp
    cases state with
    | flat => exact ih.flat mode false hp
    | broken => cases hmode
    | undecided =>
      obtain rfl : mode = .flat := hmode
      have hflat := ih.flat .flat false hp
      have hbroken :=
        ih' .undecided .broken rfl (fun h => (Bool.or_eq_false_iff.mp (hbound h)).1) false
        hflat.pending
      exact ⟨hflat.layout.choice_flat _, hbroken.pending⟩
  | ifBroken _ _ ih ih' =>
    intro state mode hmode hbound _ pending hp
    cases state with
    | flat => cases hmode
    | broken => exact ih'.broken mode false hp
    | undecided =>
      obtain rfl : mode = .broken := hmode
      have hflat := ih.flat .flat false hp
      have hbroken :=
        ih' .undecided .broken rfl (fun h => (Bool.or_eq_false_iff.mp (hbound h)).1) false
        hflat.pending
      exact ⟨hbroken.layout.choice_broken _, hbroken.pending⟩
  | fillNil _ d =>
    intro state mode _ _ _ _ hp
    cases state <;> exact ⟨Layout.neat_nil mode d, hp⟩
  | fillLast _ _ ih ih' =>
    intro state mode hmode hbound _ pending hp
    have hcontent := ih.inGroup ih' id hp mode
    cases state with
    | flat =>
      have hflat := ih.flat mode (nextIsBreak .flat []) hp
      exact hflat.seq ⟨Layout.neat_nil mode _, hflat.pending⟩
    | broken | undecided => exact hcontent.seq ⟨Layout.neat_nil mode _, hcontent.pending⟩
  | @fill _ _ _ _ _ content separator parts _ _ _ _ _ ihc ihc' ihs ihs' ih =>
    intro state mode hmode hbound _ pending hp
    have hcontent := ihc.inGroup ihc' id hp mode
    have hseparator := ihs.separator ihs' (nextIsBreak .undecided parts) hcontent.pending mode
    cases state with
    | flat =>
      have hflat := ihc.flat mode (nextIsBreak .flat (separator :: parts)) hp
      have hnext := ihs.flat mode (nextIsBreak .flat parts) hflat.pending
      exact hflat.seq (hnext.seq (ih .flat mode hmode nofun false hnext.pending))
    | broken =>
      exact hcontent.seq (hseparator.seq (ih .broken mode hmode nofun false hseparator.pending))
    | undecided =>
      have hrest : (Doc.fill parts).willBreak = false :=
        (Bool.or_eq_false_iff.mp (Bool.or_eq_false_iff.mp (hbound rfl)).2).2
      exact hcontent.seq (hseparator.seq
        (ih .undecided mode hmode (fun _ => hrest) false hseparator.pending))
  | @fillSoft _ _ m _ content parts _ _ _ ihc ihc' ih =>
    intro state mode hmode hbound _ pending hp
    have hcontent := ihc.inGroup ihc' id hp mode
    have hseparator :=
      isNeat_resolveSeparator_orNil hflush indentWidth (nextIsBreak .undecided parts)
      hcontent.pending mode m
    cases state with
    | flat =>
      have hflat := ihc.flat mode (nextIsBreak .flat (.line .orNil :: parts)) hp
      have hnext :=
        (ih .flat mode hmode nofun false hflat.pending).mono (Edge.le_ragged m) (Edge.le_refl _)
      exact hflat.seq (.seq ⟨Layout.neat_nil mode _, hflat.pending⟩ hnext)
    | broken =>
      exact hcontent.seq (hseparator.seq (ih .broken mode hmode nofun false hseparator.pending))
    | undecided =>
      have hrest : (Doc.fill parts).willBreak = false :=
        (Bool.or_eq_false_iff.mp (Bool.or_eq_false_iff.mp (hbound rfl)).2).2
      exact hcontent.seq (hseparator.seq
        (ih .undecided mode hmode (fun _ => hrest) false hseparator.pending))
  | @conditional _ d e attempt fallback _ _ ih ih' =>
    intro state mode hmode hbound beforeBreak pending hp
    have hbroken {pending : List Doc} (hp : AllRemarks pending) := ih'.broken mode false hp
    have hvariants :
        (resolveVariants flush indentWidth [attempt, fallback] []).IsNeat mode d e := by
      rw [resolveVariants, List.isEmpty_cons, if_neg Bool.false_ne_true]
      split_ifs
      · exact hbroken allRemarks_nil
      · have hfallback := hbroken allRemarks_nil
        have hattempt := ih.flat mode false hfallback.pending
        exact ⟨hattempt.layout.firstFit hfallback.layout, hattempt.pending⟩
    have hchoice :
        (resolve flush indentWidth .broken beforeBreak (Doc.conditional [attempt, fallback])
          pending).IsNeat mode d e := by
      cases pending with
      | nil => exact hvariants
      | cons => exact hbroken hp
    cases state with
    | flat => exact ih.flat mode false hp
    | broken | undecided => exact hchoice

/-- **No line ends with blanks.**  Whatever a document that is neat in a broken group is typeset as,
no line but the last one ends with a space or a tab. -/
theorem Neat.not_endsBlank {doc : Doc} {e : Edge} (h : doc.Neat .broken .clean e)
    {o : LayoutOptions} {output : String} (houtput : doc.typeset o = .ok output) {xs ys : List Char}
    (heq : output.toList = xs ++ o.lineBreak.chars ++ ys) : Text.endsBlank xs = false := by
  have hflush := isNeat_flushAt o.indentWidth doc.suffixDepth
  have halone : (doc.alone o.indentWidth).IsNeat .broken .clean e := by
    rw [← resolve_eq_alone o.indentWidth (Nat.le_succ doc.suffixDepth)]
    exact (h.resolves hflush o.indentWidth).broken .broken false allRemarks_nil
  have hlayout : (doc.layout o.indentWidth).Neat .broken .clean .ragged := by
    rw [layout_eq_finish o.indentWidth (Nat.le_succ doc.suffixDepth), Flush.finish]
    split_ifs with hpending
    · exact halone.layout.mono (Edge.le_refl _) (Edge.le_ragged _)
    · have hsome : (doc.alone o.indentWidth).pending ≠ [] := by simpa using hpending
      exact (halone.layout.mono (Edge.le_refl _) (Edge.le_ragged _)).seq
        ((hflush.layout halone.pending hsome .broken).mono (Edge.le_refl _) (Edge.le_ragged _))
  rw [typeset] at houtput
  split_ifs at houtput
  obtain rfl := Except.ok.inj houtput
  exact (hlayout o.printWidth 0 [] 0).not_endsBlank o heq

end Doc

end Reflow
