import Reflow.Doc.Typeset
import Reflow.Proofs.Layout.Stable

/-!
# Proofs/Doc/Stable — documents whose one line stays as it is

In a flat group nothing is left to the width (`Doc.isRigid_resolve_flat`), so what a document comes
to on one line can only change where a choice is not made for good.  A document is **stable** if
each of its choices is either by a group that shows it, since a line is broken there too, or between
an attempt and a fallback of several lines (`Doc.IsStable`).  Typeset as one line, it is the same
line in more width (`Doc.IsStable.typeset_wider`).
-/

namespace Reflow.Doc

variable {flush : Flush} {indentWidth : Nat}

/-! ## In flat groups -/

/-- Pending documents are set **the same at every width**. -/
def Flush.IsRigid (flush : Flush) : Prop := ∀ docs, (flush docs).layout.IsRigid

theorem isRigid_certainBreak (hflush : flush.IsRigid) (beforeBreak : Bool) (pending : List Doc) :
    (certainBreak flush beforeBreak pending).layout.IsRigid := by
  have hmark : (if beforeBreak then Layout.blankLine else .newline).IsRigid := by
    split_ifs
    · exact Layout.isRigid_blankLine
    · exact Layout.isRigid_newline
  cases pending with
  | nil => exact hmark
  | cons => exact (hflush _).seq hmark

theorem isRigid_resolveBoundary (hflush : flush.IsRigid) (pending : List Doc) :
    (resolveBoundary flush pending).layout.IsRigid := by
  rw [resolveBoundary]
  split_ifs
  · exact Layout.isRigid_nil
  · exact isRigid_certainBreak hflush false pending

mutual

/-- **Resolved in a flat group** a document is rigid. -/
theorem isRigid_resolve_flat (hflush : flush.IsRigid) (beforeBreak : Bool) (doc : Doc)
    (pending : List Doc) :
    (resolve flush indentWidth .flat beforeBreak doc pending).layout.IsRigid := by
  match doc with
  | text s => exact Layout.isRigid_text s
  | line .orSpace => exact Layout.isRigid_text " "
  | line .orNil => exact Layout.isRigid_nil
  | line .hard => exact isRigid_certainBreak hflush beforeBreak pending
  | lineSuffix _ => exact Layout.isRigid_nil
  | suffixBoundary => exact isRigid_resolveBoundary hflush pending
  | concat docs => exact isRigid_resolveAll_flat hflush docs pending
  | fill parts => exact isRigid_resolveAll_flat hflush parts pending
  | indent contents => exact (isRigid_resolve_flat hflush false contents pending).nest indentWidth
  | group _ contents => exact isRigid_resolve_flat hflush false contents pending
  | ifBreak _ flat => exact isRigid_resolve_flat hflush false flat pending
  | conditional [] => exact Layout.isRigid_nil
  | conditional (variant :: _) => exact isRigid_resolve_flat hflush false variant pending

theorem isRigid_resolveAll_flat (hflush : flush.IsRigid) (docs : List Doc) (pending : List Doc) :
    (resolveAll flush indentWidth .flat docs pending).layout.IsRigid := by
  match docs with
  | [] => exact Layout.isRigid_nil
  | doc :: docs =>
    exact (isRigid_resolve_flat hflush _ doc pending).seq (isRigid_resolveAll_flat hflush docs _)

end

theorem isRigid_resolveEach (hflush : flush.IsRigid) (docs pending : List Doc) :
    (resolveEach flush indentWidth docs pending).layout.IsRigid := by
  induction docs generalizing pending with
  | nil => exact Layout.isRigid_nil
  | cons doc docs ih => exact (isRigid_resolve_flat hflush false doc pending).seq (ih _)

/-- What is held back is flushed **in a flat group**. -/
theorem isRigid_flushAt (indentWidth depth : Nat) : (flushAt indentWidth depth).IsRigid := by
  induction depth with
  | zero => exact fun _ => Layout.isRigid_nil
  | succ depth ih => exact fun docs => isRigid_resolveEach ih docs []

/-! ## Documents of several lines -/

/-- A document that is **never printed on one line**, whatever its group and the width. -/
def AlwaysBreaks (doc : Doc) : Prop :=
  ∀ flush indentWidth state beforeBreak pending mode,
    (resolve flush indentWidth state beforeBreak doc pending).layout.BreaksIn mode

theorem breaksIn_certainBreak (flush : Flush) (beforeBreak : Bool) (pending : List Doc)
    (mode : Mode) : (certainBreak flush beforeBreak pending).layout.BreaksIn mode := by
  have hmark : (if beforeBreak then Layout.blankLine else .newline).BreaksIn mode := by
    split_ifs
    · exact Layout.breaksIn_blankLine mode
    · exact Layout.breaksIn_newline mode
  cases pending with
  | nil => exact hmark
  | cons => exact hmark.seq_right _

theorem alwaysBreaks_hard : (line .hard).AlwaysBreaks := fun flush _ _ beforeBreak pending mode =>
  breaksIn_certainBreak flush beforeBreak pending mode

/-- One document that breaks **breaks the row** it stands in. -/
theorem breaksIn_resolveAll {state : GroupState} {mode : Mode} {doc : Doc}
    (h : ∀ beforeBreak pending,
      (resolve flush indentWidth state beforeBreak doc pending).layout.BreaksIn mode)
    {docs : List Doc} (hmem : doc ∈ docs) (pending : List Doc) :
    (resolveAll flush indentWidth state docs pending).layout.BreaksIn mode := by
  induction docs generalizing pending with
  | nil => cases hmem
  | cons first docs ih =>
    obtain rfl | hmem := List.mem_cons.mp hmem
    · exact (h _ _).seq_left _
    · exact (ih hmem _).seq_right _

namespace AlwaysBreaks

variable {doc : Doc}

theorem concat (h : doc.AlwaysBreaks) {docs : List Doc} (hmem : doc ∈ docs) :
    (concat docs).AlwaysBreaks := fun _ _ _ _ pending _ =>
  breaksIn_resolveAll (fun _ _ => h _ _ _ _ _ _) hmem pending

/-- A document that always breaks **breaks its group**, whatever the width. -/
theorem group (h : doc.AlwaysBreaks) (shouldBreak : Bool) :
    (group shouldBreak doc).AlwaysBreaks := by
  intro flush indentWidth state beforeBreak pending mode
  have hinside (inside : GroupState) (mode : Mode) :
      (resolve flush indentWidth inside false doc pending).layout.BreaksIn mode := h _ _ _ _ _ _
  rw [resolve]
  cases innerState state (shouldBreak || doc.willBreak) with
  | flat | broken => exact hinside _ mode
  | undecided => exact Layout.breaksIn_group (hinside _) mode

end AlwaysBreaks

/-! ## Stable documents -/

/-- A **stable** document, in flat and in broken groups or, without `alsoBroken`,
in flat ones only. -/
inductive IsStable : (alsoBroken : Bool) → Doc → Prop
  | text {alsoBroken : Bool} (s : String) : IsStable alsoBroken (text s)
  | line {alsoBroken : Bool} (kind : LineKind) : IsStable alsoBroken (line kind)
  | suffixBoundary {alsoBroken : Bool} : IsStable alsoBroken suffixBoundary
  | lineSuffix {alsoBroken : Bool} (doc : Doc) : IsStable alsoBroken (lineSuffix doc)
  | concat {alsoBroken : Bool} {docs : List Doc} (h : ∀ doc ∈ docs, IsStable alsoBroken doc) :
      IsStable alsoBroken (concat docs)
  | indent {alsoBroken : Bool} {doc : Doc} (h : IsStable alsoBroken doc) :
      IsStable alsoBroken (indent doc)
  | ifBreak {flat : Doc} (broken : Doc) (h : IsStable false flat) :
      IsStable false (ifBreak broken flat)
  | group {alsoBroken : Bool} (shouldBreak : Bool) {doc : Doc} (h : IsStable true doc) :
      IsStable alsoBroken (group shouldBreak doc)
  /-- Of a group with a line what is printed when it is broken is on several lines. -/
  | lined {alsoBroken : Bool} (shouldBreak : Bool) {docs : List Doc} {kind : LineKind}
      (hline : .line kind ∈ docs) (h : ∀ doc ∈ docs, IsStable false doc) :
      IsStable alsoBroken (group shouldBreak (.concat docs))
  | multiline {alsoBroken : Bool} (shouldBreak : Bool) {doc : Doc} (h : doc.AlwaysBreaks) :
      IsStable alsoBroken (group shouldBreak doc)
  | conditional {alsoBroken : Bool} (attempt : Doc) {fallback : Doc} (h : fallback.AlwaysBreaks) :
      IsStable alsoBroken (conditional [attempt, fallback])

namespace IsStable

variable {alsoBroken : Bool} {a b doc : Doc}

theorem nil : Doc.nil.IsStable alsoBroken := .concat (by simp)

/-- What is stable anywhere is stable **in flat groups**. -/
theorem inFlat (h : doc.IsStable alsoBroken) : doc.IsStable false := by
  induction h with
  | text s => exact .text s
  | line kind => exact .line kind
  | suffixBoundary => exact .suffixBoundary
  | lineSuffix doc => exact .lineSuffix doc
  | concat _ ih => exact .concat ih
  | indent _ ih => exact .indent ih
  | ifBreak broken _ ih => exact .ifBreak broken ih
  | group shouldBreak h => exact .group shouldBreak h
  | lined shouldBreak hline h => exact .lined shouldBreak hline h
  | multiline shouldBreak h => exact .multiline shouldBreak h
  | conditional attempt h => exact .conditional attempt h

theorem append (ha : a.IsStable alsoBroken) (hb : b.IsStable alsoBroken) :
    (a ++ b).IsStable alsoBroken := by
  change (Doc.append a b).IsStable alsoBroken
  rw [Doc.append.eq_def]
  split
  · cases ha with
    | concat ha => exact .concat (List.forall_mem_append.mpr ⟨ha, List.forall_mem_singleton.mpr hb⟩)
  · exact .concat (by simp [ha, hb])

/-- Whether stability is known **of the place** where a document is set. -/
def Covers (alsoBroken : Bool) (state : GroupState) (mode : Mode) : Prop :=
  alsoBroken = false → state ≠ .broken ∧ mode = .flat

theorem covers_all (state : GroupState) (mode : Mode) : Covers true state mode := fun heq => by
  cases heq

theorem covers_flat : Covers false .flat .flat := fun _ => ⟨(by cases ·), rfl⟩

theorem covers_undecided : Covers false .undecided .flat := fun _ => ⟨(by cases ·), rfl⟩

/-- A line is stable: it is broken for sure, or a space or nothing **wherever it is not**. -/
theorem resolveLine (hflush : flush.IsRigid) (state : GroupState) (kind : LineKind)
    (beforeBreak : Bool) (pending : List Doc) (mode : Mode) :
    (resolveLine flush state kind beforeBreak pending).layout.IsStable mode := by
  have hcertain := (isRigid_certainBreak hflush beforeBreak pending).isStable mode
  cases kind with
  | hard => cases state <;> exact hcertain
  | orSpace =>
    cases state with
    | flat => exact (Layout.isRigid_text " ").isStable mode
    | broken => exact hcertain
    | undecided => exact Layout.isStable_softBreak 1 mode
  | orNil =>
    cases state with
    | flat => exact Layout.isRigid_nil.isStable mode
    | broken => exact hcertain
    | undecided => exact Layout.isStable_softBreak 0 mode

theorem resolveAll {state : GroupState} {mode : Mode} {docs : List Doc}
    (h : ∀ doc ∈ docs, ∀ beforeBreak pending,
      (resolve flush indentWidth state beforeBreak doc pending).layout.IsStable mode)
    (pending : List Doc) :
    (resolveAll flush indentWidth state docs pending).layout.IsStable mode := by
  induction docs generalizing pending with
  | nil => exact Layout.isRigid_nil.isStable mode
  | cons doc docs ih =>
    obtain ⟨hdoc, hdocs⟩ := List.forall_mem_cons.mp h
    exact (hdoc _ _).seq (ih hdocs _)

/-- In a broken group **a line is broken**, of whatever kind. -/
theorem breaksIn_line_broken (kind : LineKind) (beforeBreak : Bool) (pending : List Doc)
    (mode : Mode) :
    (resolve flush indentWidth .broken beforeBreak (.line kind) pending).layout.BreaksIn mode := by
  cases kind <;> exact breaksIn_certainBreak flush beforeBreak pending mode

theorem breaksIn_line_undecided (kind : LineKind) (beforeBreak : Bool) (pending : List Doc) :
    (resolve flush indentWidth .undecided beforeBreak (.line kind) pending).layout.BreaksIn
      .broken := by
  cases kind with
  | hard => exact breaksIn_certainBreak flush beforeBreak pending .broken
  | orSpace => exact Layout.breaksIn_softBreak 1
  | orNil => exact Layout.breaksIn_softBreak 0

/-- A stable document is **resolved to a stable layout**. -/
theorem resolve (h : doc.IsStable alsoBroken) (hflush : flush.IsRigid) (indentWidth : Nat)
    {state : GroupState} {mode : Mode} (hplace : Covers alsoBroken state mode) (beforeBreak : Bool)
    (pending : List Doc) :
    (resolve flush indentWidth state beforeBreak doc pending).layout.IsStable mode := by
  induction h generalizing state mode beforeBreak pending with
  | text s => exact (Layout.isRigid_text s).isStable mode
  | line kind => exact resolveLine hflush state kind beforeBreak pending mode
  | suffixBoundary => exact (isRigid_resolveBoundary hflush pending).isStable mode
  | lineSuffix => exact Layout.isRigid_nil.isStable mode
  | concat _ ih => exact resolveAll (fun doc hdoc => ih doc hdoc hplace) pending
  | indent _ ih => exact (ih hplace false pending).nest indentWidth
  | ifBreak broken _ ih =>
    obtain ⟨hstate, rfl⟩ := hplace rfl
    cases state with
    | flat => exact ih covers_flat false pending
    | broken => exact absurd rfl hstate
    | undecided => exact (ih covers_flat false pending).choice _
  | group shouldBreak _ ih =>
    have hinside (inside : GroupState) (mode : Mode) :
        (Doc.resolve flush indentWidth inside false _ pending).layout.IsStable mode :=
      ih (covers_all inside mode) false pending
    rw [Doc.resolve]
    cases innerState state (shouldBreak || _) with
    | flat | broken => exact hinside _ mode
    | undecided => exact .group (hinside _) mode
  | @lined _ shouldBreak docs kind hline _ ih =>
    rw [Doc.resolve]
    cases innerState state (shouldBreak || (Doc.concat docs).willBreak) with
    | flat => exact (isRigid_resolveAll_flat hflush docs pending).isStable mode
    | broken =>
      exact (breaksIn_resolveAll (fun _ _ => breaksIn_line_broken kind _ _ _) hline
        pending).isStable
    | undecided =>
      refine .group (fun mode => ?_) mode
      cases mode with
      | flat =>
        exact resolveAll (fun doc hdoc => ih doc hdoc covers_undecided) pending
      | broken =>
        exact (breaksIn_resolveAll (fun _ _ => breaksIn_line_undecided kind _ _) hline
          pending).isStable
  | multiline shouldBreak h => exact (h.group shouldBreak _ _ _ _ _ _).isStable
  | @conditional _ attempt fallback h =>
    have hflat (pending : List Doc) :
        (Doc.resolve flush indentWidth .flat false attempt pending).layout.IsRigid :=
      isRigid_resolve_flat hflush false attempt pending
    have hvariants :
        (resolveVariants flush indentWidth [attempt, fallback] []).layout.IsStable mode := by
      rw [resolveVariants, List.isEmpty_cons, if_neg Bool.false_ne_true]
      dsimp only
      split_ifs
      · exact (h _ _ _ _ _ mode).isStable
      · exact (hflat _).firstFit (fun mode => h _ _ _ _ _ mode) mode
    have hpending : (Doc.resolve flush indentWidth .broken beforeBreak
        (Doc.conditional [attempt, fallback]) pending).layout.IsStable mode := by
      cases pending with
      | nil => exact hvariants
      | cons => exact (h _ _ _ _ _ mode).isStable
    cases state with
    | flat => exact (hflat pending).isStable mode
    | broken | undecided => exact hpending

/-- The layout of a document that is stable **wherever it stands** is stable. -/
theorem layout (h : doc.IsStable true) (indentWidth : Nat) (mode : Mode) :
    (doc.layout indentWidth).IsStable mode := by
  have hflush := isRigid_flushAt indentWidth doc.suffixDepth
  have hwhole : (Doc.resolve (flushAt indentWidth doc.suffixDepth) indentWidth .broken false doc
      []).layout.IsStable mode := h.resolve hflush indentWidth (covers_all _ _) false []
  rw [Doc.layout]
  split_ifs
  · exact hwhole
  · exact hwhole.seq ((hflush _).isStable mode)

/-- **One line stays as it is.**  A stable document that is typeset without a line feed is typeset
alike in more width. -/
theorem typeset_wider (h : doc.IsStable true) (o : LayoutOptions) {width width' : Nat}
    (hle : width ≤ width') {output : String}
    (htypeset : doc.typeset { o with printWidth := width } = .ok output)
    (hline : '\n' ∉ output.toList) : doc.typeset { o with printWidth := width' } = .ok output := by
  rw [typeset] at htypeset ⊢
  split_ifs at htypeset ⊢
  obtain rfl := Except.ok.inj htypeset
  have hpieces :
      doc.pieces { o with printWidth := width' } = doc.pieces { o with printWidth := width } :=
    h.layout o.indentWidth .broken hle (.same .broken []) (Piece.onOneLine_of_write hline)
  rw [hpieces]
  rfl

end IsStable

end Reflow.Doc
