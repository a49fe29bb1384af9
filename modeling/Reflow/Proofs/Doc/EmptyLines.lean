import Reflow.Proofs.Doc.Levels
import Reflow.Proofs.Doc.Pending
import Reflow.Proofs.Layout.Strokes

/-!
# Proofs/Doc/EmptyLines — an empty line is followed by a line break

A certain line break is the break of an empty line if the next document that prints anything is a
line break as well.  That is told from the documents themselves, in front of where they are
resolved.  It turns out right: what stands in between is empty, the line is certain there too, and
nothing is pending any more that would be printed in front of it (`Doc.resolveAll_runsTo`,
`Doc.fillFromSeparator_runsTo`).  So the column is that of the line wherever something shows
(`Doc.exists_path_typeset`).
-/

namespace Reflow

open Layout (RunsTo)

theorem Layout.RunsTo.inGroup {start stop : LineStart} {layout : Layout}
    (h : RunsTo start layout stop) (state : GroupState) :
    RunsTo start (Doc.inGroup state layout) stop := by
  cases state with
  | flat | broken => exact h
  | undecided => exact h.group

/-- What is resolved **runs on** from the start of a line: to an indented line, or to a bare one if
a line break is sure to follow and nothing is pending. -/
def Resolved.RunsOn (start : LineStart) (beforeBreak : Bool) (r : Resolved) : Prop :=
  ∃ stop, r.layout.RunsTo start stop ∧ (stop = .bare → beforeBreak = true ∧ r.pending = [])

namespace Resolved.RunsOn

variable {start : LineStart} {beforeBreak : Bool} {r : Resolved}

theorem of_runsTo (h : r.layout.RunsTo start .indented) : r.RunsOn start beforeBreak :=
  ⟨.indented, h, nofun⟩

/-- With no line break behind it **no line is left bare**. -/
theorem runsTo (h : r.RunsOn start false) : r.layout.RunsTo start .indented := by
  obtain ⟨stop, hruns, hstop⟩ := h
  cases stop with
  | indented => exact hruns
  | bare => cases (hstop rfl).1

end Resolved.RunsOn

namespace Doc

/-- A flush that leaves nothing pending of plain documents, and **no line bare**. -/
structure Flush.IsClosed (flush : Flush) : Prop where
  clears : flush.Clears
  runsTo {docs : List Doc} (h : AllPlain docs) : (flush docs).layout.RunsTo .indented .indented

variable {flush : Flush} {pending : List Doc}

/-! ## Lines -/

/-- A line break that is certain leaves a line bare only **before another one**. -/
theorem certainBreak_runsOn (hflush : flush.IsClosed) (beforeBreak : Bool) (hp : AllPlain pending)
    (start : LineStart) (hstart : start = .bare → pending = []) :
    (certainBreak flush beforeBreak pending).RunsOn start beforeBreak := by
  have hmark (start : LineStart) : (if beforeBreak then Layout.blankLine else .newline).RunsTo start
      (if beforeBreak then .bare else .indented) := by
    split_ifs
    · exact .blankLine start
    · exact .newline start
  refine ⟨if beforeBreak then .bare else .indented, ?_, fun hbare =>
    ⟨by simpa using hbare, pending_certainBreak hflush.clears beforeBreak hp⟩⟩
  rw [certainBreak]
  cases pending with
  | nil => exact hmark start
  | cons doc pending =>
    cases start with
    | bare => cases hstart rfl
    | indented => exact (hflush.runsTo hp).seq (hmark .indented)

theorem certainBreak_runsOn_indented (hflush : flush.IsClosed) (beforeBreak : Bool)
    (hp : AllPlain pending) :
    (certainBreak flush beforeBreak pending).RunsOn .indented beforeBreak :=
  certainBreak_runsOn hflush beforeBreak hp .indented nofun

theorem certainBreak_runsOn_bare (hflush : flush.IsClosed) (beforeBreak : Bool) :
    (certainBreak flush beforeBreak []).RunsOn .bare beforeBreak :=
  certainBreak_runsOn hflush beforeBreak allPlain_nil .bare fun _ => rfl

theorem resolveLine_runsOn (hflush : flush.IsClosed) (state : GroupState) (kind : LineKind)
    (beforeBreak : Bool) (hp : AllPlain pending) :
    (resolveLine flush state kind beforeBreak pending).RunsOn .indented beforeBreak := by
  have hbreak := certainBreak_runsOn_indented hflush beforeBreak hp
  cases state with
  | broken => cases kind <;> exact hbreak
  | flat =>
    cases kind with
    | hard => exact hbreak
    | orSpace => exact .of_runsTo (.text " ")
    | orNil => exact .of_runsTo (.nil .indented)
  | undecided =>
    cases kind with
    | hard => exact hbreak
    | orSpace => exact .of_runsTo (.softBreak 1)
    | orNil => exact .of_runsTo (.softBreak 0)

theorem resolveBoundary_runsTo (hflush : flush.IsClosed) (hp : AllPlain pending) :
    (resolveBoundary flush pending).layout.RunsTo .indented .indented := by
  rw [resolveBoundary]
  split_ifs
  · exact .nil .indented
  · exact (certainBreak_runsOn_indented hflush false hp).runsTo

/-! ## Between two line breaks -/

mutual

/-- An empty document **need not break**. -/
theorem willBreak_of_isEmpty (doc : Doc) (h : doc.isEmpty = true) : doc.willBreak = false := by
  match doc with
  | text _ => rfl
  | concat docs => exact anyWillBreak_of_allEmpty docs h

theorem anyWillBreak_of_allEmpty (docs : List Doc) (h : allEmpty docs = true) :
    anyWillBreak docs = false := by
  match docs with
  | [] => rfl
  | doc :: docs =>
    obtain ⟨hdoc, hdocs⟩ := Bool.and_eq_true_iff.mp h
    rw [anyWillBreak, willBreak_of_isEmpty doc hdoc, anyWillBreak_of_allEmpty docs hdocs,
      Bool.or_false]

end

mutual

/-- An empty document leaves the line **as it is**, and pending what is pending. -/
theorem resolve_of_isEmpty (flush : Flush) (indentWidth : Nat) (state : GroupState)
    (beforeBreak : Bool) (doc : Doc) (h : doc.isEmpty = true) (pending : List Doc) :
    (resolve flush indentWidth state beforeBreak doc pending).pending = pending ∧
      ∀ start,
        (resolve flush indentWidth state beforeBreak doc pending).layout.RunsTo start start := by
  match doc with
  | text s =>
    obtain rfl : s = "" := String.isEmpty_iff.mp h
    exact ⟨rfl, .noText⟩
  | concat docs => exact resolveAll_of_allEmpty flush indentWidth state docs h pending

theorem resolveAll_of_allEmpty (flush : Flush) (indentWidth : Nat) (state : GroupState)
    (docs : List Doc) (h : allEmpty docs = true) (pending : List Doc) :
    (resolveAll flush indentWidth state docs pending).pending = pending ∧
      ∀ start, (resolveAll flush indentWidth state docs pending).layout.RunsTo start start := by
  match docs with
  | [] => exact ⟨rfl, .nil⟩
  | doc :: docs =>
    obtain ⟨hdoc, hdocs⟩ := Bool.and_eq_true_iff.mp h
    obtain ⟨hpending, hruns⟩ :=
      resolve_of_isEmpty flush indentWidth state (nextIsBreak state docs) doc hdoc pending
    obtain ⟨hpending', hruns'⟩ := resolveAll_of_allEmpty flush indentWidth state docs hdocs pending
    rw [resolveAll, hpending]
    exact ⟨hpending', fun start => (hruns start).seq (hruns' start)⟩

end

/-- Where a line break is sure to follow, the next document is **empty or that line break**. -/
theorem nextIsBreak_cons {state : GroupState} {doc : Doc} {docs : List Doc}
    (h : nextIsBreak state (doc :: docs) = true) :
    doc.isEmpty = true ∧ nextIsBreak state docs = true ∨
      ∃ kind, doc = line kind ∧ (kind = .hard ∨ state = .broken) := by
  unfold nextIsBreak at h ⊢
  cases hempty : doc.isEmpty with
  | true =>
    rw [List.find?_cons_of_neg (by simp [hempty])] at h
    exact .inl ⟨rfl, h⟩
  | false =>
    rw [List.find?_cons_of_pos (by simp [hempty])] at h
    cases doc with
    | line kind =>
      refine .inr ⟨kind, rfl, ?_⟩
      cases kind with
      | hard => exact .inl rfl
      | orSpace | orNil => exact .inr (beq_iff_eq.mp h)
    | text | concat | indent | group | fill | ifBreak | conditional | lineSuffix | suffixBoundary =>
      cases h

/-- Where documents end, **no line is bare**, since none of them is left to break it. -/
theorem nil_runsTo {state : GroupState} {pending : List Doc} {start : LineStart}
    (hstart : start = .bare → nextIsBreak state [] = true ∧ pending = []) :
    Layout.nil.RunsTo start .indented := by
  cases start with
  | indented => exact .nil .indented
  | bare => cases (hstart rfl).1

section Bare

variable {state : GroupState} {doc : Doc} {docs : List Doc}

/-- On a bare line a document **runs on** to the line break that was sure to follow. -/
theorem resolve_runsOn_bare (hflush : flush.IsClosed) (indentWidth : Nat)
    (hnext : nextIsBreak state (doc :: docs) = true) :
    (resolve flush indentWidth state (nextIsBreak state docs) doc []).RunsOn .bare
      (nextIsBreak state docs) := by
  obtain ⟨hempty, hnext⟩ | ⟨kind, rfl, hkind⟩ := nextIsBreak_cons hnext
  · obtain ⟨hpending, hruns⟩ :=
      resolve_of_isEmpty flush indentWidth state (nextIsBreak state docs) doc hempty []
    exact ⟨.bare, hruns .bare, fun _ => ⟨hnext, hpending⟩⟩
  · have hcertain : resolveLine flush state kind (nextIsBreak state docs) [] =
        certainBreak flush (nextIsBreak state docs) [] := by
      obtain rfl | rfl := hkind
      · cases state <;> rfl
      · cases kind <;> rfl
    rw [resolve, hcertain]
    exact certainBreak_runsOn_bare hflush _

/-- So does a **content of a fill**, in a group of its own. -/
theorem content_runsOn_bare (hflush : flush.IsClosed) (indentWidth : Nat)
    (hnext : nextIsBreak .undecided (doc :: docs) = true) :
    let inside := innerState .undecided doc.willBreak
    let here := resolve flush indentWidth inside false doc []
    Resolved.RunsOn .bare (nextIsBreak .undecided docs) ⟨inGroup inside here.layout,
      here.pending⟩ := by
  intro inside here
  obtain ⟨hempty, hnext⟩ | ⟨kind, rfl, rfl | ⟨⟨⟩⟩⟩ := nextIsBreak_cons hnext
  · obtain ⟨hpending, hruns⟩ := resolve_of_isEmpty flush indentWidth inside false doc hempty []
    exact ⟨.bare, (hruns .bare).inGroup inside, fun _ => ⟨hnext, hpending⟩⟩
  · exact .of_runsTo (certainBreak_runsOn_bare hflush false).runsTo

/-- And so does a **separator**. -/
theorem separator_runsOn_bare (hflush : flush.IsClosed) (indentWidth : Nat)
    (hnext : nextIsBreak .undecided (doc :: docs) = true) :
    (resolveSeparator flush indentWidth (nextIsBreak .undecided docs) doc []).RunsOn .bare
      (nextIsBreak .undecided docs) := by
  obtain ⟨hempty, hnext⟩ | ⟨kind, rfl, rfl | ⟨⟨⟩⟩⟩ := nextIsBreak_cons hnext
  · have hany (state : GroupState) := resolve_of_isEmpty flush indentWidth state false doc hempty []
    have hkind : doc.separatorKind = .other := by
      match doc with
      | text s => rfl
      | concat docs => exact if_neg (by simp [willBreak_of_isEmpty _ hempty])
    have hpending : (resolve flush indentWidth .flat false doc []).pending = [] := (hany .flat).1
    simp only [resolveSeparator, hkind, hpending]
    exact ⟨.bare, ((hany .flat).2 .bare).firstFit ((hany .broken).2 .bare),
      fun _ => ⟨hnext, (hany .broken).1⟩⟩
  · exact certainBreak_runsOn_bare hflush _

end Bare

/-! ## Separators -/

section Separators

variable {indentWidth : Nat} {beforeBreak : Bool} {separator : Doc}

theorem pending_resolveSeparator (hflush : flush.Clears) (indentWidth : Nat) (beforeBreak : Bool)
    (h : separator.suffixDepth ≤ 1) (hp : AllPlain pending) :
    AllPlain (resolveSeparator flush indentWidth beforeBreak separator pending).pending := by
  have hany (state : GroupState) {pending : List Doc} (hp : AllPlain pending) :
      AllPlain (resolve flush indentWidth state false separator pending).pending :=
    (resolve_leaves hflush indentWidth state false separator h hp).plain
  rw [resolveSeparator.eq_def]
  split
  · rw [pending_certainBreak hflush beforeBreak hp]
    exact allPlain_nil
  · exact hany .broken hp
  · exact hany .broken hp
  · exact allPlain_nil
  · exact hany .broken (hany .flat allPlain_nil)

/-- A separator leaves a line bare only if it is a **hard line** and another line break
is sure to follow. -/
theorem resolveSeparator_runsOn (hflush : flush.IsClosed) (h : separator.suffixDepth ≤ 1)
    (hruns : ∀ (state : GroupState) {pending : List Doc}, AllPlain pending →
      (resolve flush indentWidth state false separator pending).layout.RunsTo .indented .indented)
    (hp : AllPlain pending) :
    (resolveSeparator flush indentWidth beforeBreak separator pending).RunsOn
      .indented beforeBreak := by
  rw [resolveSeparator.eq_def]
  split
  · exact certainBreak_runsOn_indented hflush beforeBreak hp
  · exact .of_runsTo (hruns .broken hp)
  · exact .of_runsTo (hruns .broken hp)
  · exact .of_runsTo (Layout.RunsTo.softBreak 1).group
  · have hflat :=
      (resolve_leaves hflush.clears indentWidth .flat false separator h allPlain_nil).plain
    exact .of_runsTo ((hruns .flat allPlain_nil).firstFit (hruns .broken hflat))

end Separators

/-! ## Documents

By recursion on the document, one statement for each function of the resolver. -/

mutual

/-- **Resolving a document** leaves a line bare only if the document is a line and another line
break is sure to follow. -/
theorem resolve_runsOn (hflush : flush.IsClosed) (indentWidth : Nat) (state : GroupState)
    (beforeBreak : Bool) (doc : Doc) (h : doc.suffixDepth ≤ 1) {pending : List Doc}
    (hp : AllPlain pending) :
    (resolve flush indentWidth state beforeBreak doc pending).RunsOn .indented beforeBreak := by
  match doc with
  | text s => exact .of_runsTo (.text s)
  | concat docs => exact .of_runsTo (resolveAll_runsTo hflush indentWidth state docs h hp nofun)
  | line kind => exact resolveLine_runsOn hflush state kind beforeBreak hp
  | indent contents =>
    have inner := (resolve_runsOn hflush indentWidth state false contents h hp).runsTo
    exact .of_runsTo (inner.nest indentWidth)
  | group shouldBreak contents =>
    have inner := (resolve_runsOn hflush indentWidth
      (innerState state (shouldBreak || contents.willBreak)) false contents h hp).runsTo
    exact .of_runsTo (inner.inGroup _)
  | fill parts =>
    cases state with
    | flat => exact .of_runsTo (resolveAll_runsTo hflush indentWidth .flat parts h hp nofun)
    | broken | undecided =>
      exact .of_runsTo (fillFromContent_runsTo hflush indentWidth parts h hp nofun)
  | ifBreak broken flat =>
    obtain ⟨hbroken, hflat⟩ := Nat.max_le.mp h
    have whenFlat := (resolve_runsOn hflush indentWidth .flat false flat hflat hp).runsTo
    cases state with
    | flat => exact .of_runsTo whenFlat
    | broken =>
      exact .of_runsTo (resolve_runsOn hflush indentWidth .broken false broken hbroken hp).runsTo
    | undecided =>
      have hplain := (resolve_leaves hflush.clears indentWidth .flat false flat hflat hp).plain
      exact .of_runsTo (whenFlat.choice
        (resolve_runsOn hflush indentWidth .undecided false broken hbroken hplain).runsTo)
  | conditional variants =>
    cases state with
    | flat => exact .of_runsTo (resolveFirst_runsTo hflush indentWidth variants h hp)
    | broken | undecided =>
      rw [resolve]
      split_ifs
      · exact .of_runsTo (resolveVariants_runsTo hflush indentWidth variants h hp)
      · exact .of_runsTo (resolveLast_runsTo hflush indentWidth variants h hp)
  | lineSuffix contents => exact .of_runsTo (.nil .indented)
  | suffixBoundary => exact .of_runsTo (resolveBoundary_runsTo hflush hp)
termination_by structural doc

theorem resolveAll_runsTo (hflush : flush.IsClosed) (indentWidth : Nat) (state : GroupState)
    (docs : List Doc) (h : maxSuffixDepth docs ≤ 1) {pending : List Doc} (hp : AllPlain pending)
    {start : LineStart} (hstart : start = .bare → nextIsBreak state docs = true ∧ pending = []) :
    (resolveAll flush indentWidth state docs pending).layout.RunsTo start .indented := by
  match docs with
  | [] => exact nil_runsTo hstart
  | doc :: docs =>
    obtain ⟨hdoc, hdocs⟩ := Nat.max_le.mp h
    have hplain := (resolve_leaves hflush.clears indentWidth state (nextIsBreak state docs) doc hdoc
      hp).plain
    have here : (resolve flush indentWidth state (nextIsBreak state docs) doc pending).RunsOn start
        (nextIsBreak state docs) := by
      cases start with
      | indented => exact resolve_runsOn hflush indentWidth state _ doc hdoc hp
      | bare =>
        obtain ⟨hnext, rfl⟩ := hstart rfl
        exact resolve_runsOn_bare hflush indentWidth hnext
    obtain ⟨stop, hruns, hstop⟩ := here
    exact hruns.seq (resolveAll_runsTo hflush indentWidth state docs hdocs hplain hstop)
termination_by structural docs

theorem fillFromContent_runsTo (hflush : flush.IsClosed) (indentWidth : Nat) (parts : List Doc)
    (h : maxSuffixDepth parts ≤ 1) {pending : List Doc} (hp : AllPlain pending) {start : LineStart}
    (hstart : start = .bare → nextIsBreak .undecided parts = true ∧ pending = []) :
    (fillFromContent flush indentWidth parts pending).layout.RunsTo start .indented := by
  match parts with
  | [] => exact nil_runsTo hstart
  | content :: parts =>
    obtain ⟨hcontent, hparts⟩ := Nat.max_le.mp h
    let inside := innerState .undecided content.willBreak
    let inner := resolve flush indentWidth inside false content pending
    have hplain : AllPlain inner.pending :=
      (resolve_leaves hflush.clears indentWidth inside false content hcontent hp).plain
    have here : Resolved.RunsOn start (nextIsBreak .undecided parts)
        ⟨inGroup inside inner.layout, inner.pending⟩ := by
      cases start with
      | indented =>
        have hinner := (resolve_runsOn hflush indentWidth inside false content hcontent hp).runsTo
        exact .of_runsTo (hinner.inGroup inside)
      | bare =>
        obtain ⟨hnext, rfl⟩ := hstart rfl
        exact content_runsOn_bare hflush indentWidth hnext
    obtain ⟨stop, hruns, hstop⟩ := here
    exact hruns.seq (fillFromSeparator_runsTo hflush indentWidth parts hparts hplain hstop)
termination_by structural parts

theorem fillFromSeparator_runsTo (hflush : flush.IsClosed) (indentWidth : Nat) (parts : List Doc)
    (h : maxSuffixDepth parts ≤ 1) {pending : List Doc} (hp : AllPlain pending) {start : LineStart}
    (hstart : start = .bare → nextIsBreak .undecided parts = true ∧ pending = []) :
    (fillFromSeparator flush indentWidth parts pending).layout.RunsTo start .indented := by
  match parts with
  | [] => exact nil_runsTo hstart
  | separator :: parts =>
    obtain ⟨hseparator, hparts⟩ := Nat.max_le.mp h
    have here : (resolveSeparator flush indentWidth (nextIsBreak .undecided parts) separator
        pending).RunsOn start (nextIsBreak .undecided parts) := by
      cases start with
      | indented =>
        exact resolveSeparator_runsOn hflush hseparator (fun state _ hp =>
          (resolve_runsOn hflush indentWidth state false separator hseparator hp).runsTo) hp
      | bare =>
        obtain ⟨hnext, rfl⟩ := hstart rfl
        exact separator_runsOn_bare hflush indentWidth hnext
    have hplain := pending_resolveSeparator hflush.clears indentWidth (nextIsBreak .undecided parts)
      hseparator hp
    obtain ⟨stop, hruns, hstop⟩ := here
    exact hruns.seq (fillFromContent_runsTo hflush indentWidth parts hparts hplain hstop)
termination_by structural parts

theorem resolveVariants_runsTo (hflush : flush.IsClosed) (indentWidth : Nat) (variants : List Doc)
    (h : maxSuffixDepth variants ≤ 1) {pending : List Doc} (hp : AllPlain pending) :
    (resolveVariants flush indentWidth variants pending).layout.RunsTo .indented .indented := by
  match variants with
  | [] => exact .nil .indented
  | variant :: others =>
    obtain ⟨hvariant, hothers⟩ := Nat.max_le.mp h
    have fallback := resolveVariants_runsTo hflush indentWidth others hothers hp
    have hplain := (resolveVariants_leaves hflush.clears indentWidth others hothers hp).plain
    rw [resolveVariants]
    split_ifs
    · exact (resolve_runsOn hflush indentWidth .broken false variant hvariant hp).runsTo
    · exact fallback
    · exact (resolve_runsOn hflush indentWidth .flat false variant hvariant hplain).runsTo.firstFit
        fallback
termination_by structural variants

theorem resolveFirst_runsTo (hflush : flush.IsClosed) (indentWidth : Nat) (variants : List Doc)
    (h : maxSuffixDepth variants ≤ 1) {pending : List Doc} (hp : AllPlain pending) :
    (resolveFirst flush indentWidth variants pending).layout.RunsTo .indented .indented := by
  match variants with
  | [] => exact .nil .indented
  | variant :: _ =>
    exact (resolve_runsOn hflush indentWidth .flat false variant (Nat.max_le.mp h).1 hp).runsTo
termination_by structural variants

theorem resolveLast_runsTo (hflush : flush.IsClosed) (indentWidth : Nat) (variants : List Doc)
    (h : maxSuffixDepth variants ≤ 1) {pending : List Doc} (hp : AllPlain pending) :
    (resolveLast flush indentWidth variants pending).layout.RunsTo .indented .indented := by
  match variants with
  | [] => exact .nil .indented
  | variant :: others =>
    obtain ⟨hvariant, hothers⟩ := Nat.max_le.mp h
    rw [resolveLast]
    split_ifs
    · exact (resolve_runsOn hflush indentWidth .broken false variant hvariant hp).runsTo
    · exact resolveLast_runsTo hflush indentWidth others hothers hp
termination_by structural variants

end

/-! ## Documents that stand alone -/

/-- **Every flush of the resolver** leaves no line bare. -/
theorem flushAt_isClosed (indentWidth depth : Nat) : (flushAt indentWidth depth).IsClosed := by
  refine ⟨flushAt_clears indentWidth depth, ?_⟩
  induction depth with
  | zero => exact fun _ => .nil .indented
  | succ depth ih =>
    intro docs hplain
    have hflush : (flushAt indentWidth depth).IsClosed := ⟨flushAt_clears indentWidth depth, ih⟩
    rw [flushAt]
    induction docs with
    | nil => exact .nil .indented
    | cons doc docs ihdocs =>
      obtain ⟨hdoc, hdocs⟩ := List.forall_mem_cons.mp hplain
      have hdepth : doc.suffixDepth ≤ 1 := hdoc.le.trans (Nat.zero_le 1)
      have hleaves := resolve_leaves hflush.clears indentWidth .flat false doc hdepth allPlain_nil
      have hnone :
          (resolve (flushAt indentWidth depth) indentWidth .flat false doc []).pending = [] :=
        or_self_iff.mp (hleaves.settled hdoc)
      have here := (resolve_runsOn hflush indentWidth .flat false doc hdepth allPlain_nil).runsTo
      rw [resolveEach, hnone]
      exact here.seq (ihdocs hdocs)

/-- The layout of a document **leaves no line bare**, its end included. -/
theorem layout_runsTo (indentWidth : Nat) {doc : Doc} (h : doc.suffixDepth ≤ 1) :
    (doc.layout indentWidth).RunsTo .indented .indented := by
  have hflush := flushAt_isClosed indentWidth doc.suffixDepth
  have whole := (resolve_runsOn hflush indentWidth .broken false doc h allPlain_nil).runsTo
  have hplain := (resolve_leaves hflush.clears indentWidth .broken false doc h allPlain_nil).plain
  rw [layout]
  split_ifs
  · exact whole
  · exact whole.seq (hflush.runsTo hplain)

open Stroke (BreaksFollow Writes) in
/-- **An empty line is followed by a line break.**  Let a document hold no suffix inside another,
and no line feed in its texts.  In every state, and with plain suffixes pending, it is resolved to a
layout in which the break of every empty line is followed by another line break before anything
shows, along every path.  It is typeset along a path of its own layout, and along this or any other
path, however it is written, the column is that of the line in the output wherever something shows,
and the line starts with its indentation. -/
theorem exists_path_typeset (o : LayoutOptions) {doc : Doc}
    (htexts : doc.EveryText fun s => '\n' ∉ s.toList) (hdepth : doc.suffixDepth ≤ 1) :
    (∀ depth state pending, AllPlain pending → ∀ indent strokes,
      (resolve (flushAt o.indentWidth depth) o.indentWidth state false doc pending).layout.Path
        indent strokes → BreaksFollow strokes) ∧
    (0 < o.indentWidth → doc.typeset o = .ok (Piece.write o (doc.pieces o))) ∧
    (∃ strokes, (doc.layout o.indentWidth).Path 0 strokes ∧
      List.Forall₂ Writes strokes (doc.pieces o)) ∧
    ∀ strokes, (doc.layout o.indentWidth).Path 0 strokes → BreaksFollow strokes ∧
      ∀ pieces, List.Forall₂ Writes strokes pieces → ∀ i stroke, strokes[i]? = some stroke →
        stroke.shows = true → Piece.InColumn o (pieces.take i) := by
  refine ⟨fun depth state pending hp indent strokes hpath => ?_,
    fun hindent => by rw [typeset, if_neg hindent.ne'], Layout.exists_path_set ..,
    fun strokes hpath => ?_⟩
  · have hruns :=
      resolve_runsOn (flushAt_isClosed o.indentWidth depth) o.indentWidth state false doc hdepth hp
    exact (hruns.runsTo indent strokes hpath).breaksFollow
  · have hruns := layout_runsTo o.indentWidth hdepth 0 strokes hpath
    have hleveled :=
      layout_isLeveled (P := fun s => '\n' ∉ s.toList) (by decide) o.indentWidth htexts
    exact ⟨hruns.breaksFollow, fun pieces hwritten i stroke hi hshows =>
      hruns.inColumn hwritten o (hleveled.path hpath) hi hshows⟩

/-- Behind a remark at the end of its line, an empty line in front of an **indented** one. -/
theorem exists_path_typeset_remark :
    let doc := concat [text "a", lineSuffix (text " // b"),
      indent (concat [line .hard, text "", line .hard, text "c"])]
    (doc.EveryText fun s => '\n' ∉ s.toList) ∧ doc.suffixDepth ≤ 1 ∧
      doc.typeset {} = .ok "a // b\n\n  c" ∧ .blankLine ∈ doc.pieces {} ∧
      ∃ strokes, List.Forall₂ Stroke.Writes strokes (doc.pieces {}) ∧ Stroke.BreaksFollow strokes ∧
        ∀ i stroke, strokes[i]? = some stroke → stroke.shows = true →
          Piece.InColumn {} ((doc.pieces {}).take i) := by
  intro doc
  have htexts : doc.EveryText fun s => '\n' ∉ s.toList := by simp [doc, AllTexts]
  have hdepth : doc.suffixDepth ≤ 1 := by decide
  obtain ⟨-, -, ⟨strokes, hpath, hwritten⟩, hall⟩ := exists_path_typeset {} htexts hdepth
  obtain ⟨hfollow, hcolumn⟩ := hall strokes hpath
  exact ⟨htexts, hdepth, by decide, by decide, strokes, hwritten, hfollow, hcolumn _ hwritten⟩

end Doc

end Reflow
