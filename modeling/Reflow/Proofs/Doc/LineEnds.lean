import Reflow.Doc.Typeset
import Reflow.Proofs.Doc.Depth
import Reflow.Proofs.Doc.Events
import Reflow.Proofs.Doc.Pending

/-!
# Proofs/Doc/LineEnds — what is held back ends its line

Resolving a document without choices follows its events: what is pending is what is waiting, and
however the layout is set it prints what the events emit (`Doc.resolve_follows`).  So a suffix is
printed behind all texts up to the next break that is certain, or the next boundary, and ends its
line unless the width breaks a group in between (`Doc.exists_traces_typeset`).  Such a break does
not wait for anything: what is pending is printed at the end of a later line
(`Doc.typeset_group_outruns`).
-/

namespace Reflow

/-! ## Flushing -/

/-- What is resolved **is these items**: nothing is pending, and the layout is set as the items
wherever it stands. -/
structure Resolved.IsItems (r : Resolved) (items : List Item) : Prop where
  pending : r.pending = []
  set (width : Nat) (mode : Mode) (indent : Nat) (rest : Layout.Rest) (column : Nat) :
    (r.layout.set width mode indent rest column).flatMap Piece.items = items

theorem Resolved.IsItems.seq {r r' : Resolved} {items items' : List Item} (h : r.IsItems items)
    (h' : r'.IsItems items') : IsItems ⟨.seq r.layout r'.layout, r'.pending⟩ (items ++ items') := by
  refine ⟨h'.pending, fun width mode indent rest column => ?_⟩
  rw [Layout.set, List.flatMap_append, h.set, h'.set]

namespace Doc

/-- A flush that **prints plain documents** and leaves nothing pending. -/
def Flush.PrintsHeld (flush : Flush) : Prop :=
  ∀ docs, AllPlain docs → (flush docs).IsItems (held docs)

theorem Flush.PrintsHeld.clears {flush : Flush} (h : flush.PrintsHeld) : flush.Clears :=
  fun docs hplain => (h docs hplain).pending

mutual

/-- **Resolved in a flat group**, a plain document is what it prints on one line. -/
theorem isItems_resolve_flat (flush : Flush) (indentWidth : Nat) (beforeBreak : Bool) (doc : Doc)
    (h : doc.suffixDepth = 0) :
    (resolve flush indentWidth .flat beforeBreak doc []).IsItems doc.onOneLine := by
  match doc with
  | text s => exact ⟨rfl, fun _ _ _ _ _ => rfl⟩
  | line .hard => cases beforeBreak <;> exact ⟨rfl, fun _ _ _ _ _ => rfl⟩
  | line .orSpace => exact ⟨rfl, fun _ _ _ _ _ => rfl⟩
  | line .orNil => exact ⟨rfl, fun _ _ _ _ _ => rfl⟩
  | suffixBoundary => exact ⟨rfl, fun _ _ _ _ _ => rfl⟩
  | lineSuffix _ => exact absurd h (Nat.succ_ne_zero _)
  | concat docs => exact isItems_resolveAll_flat flush indentWidth docs h
  | fill parts => exact isItems_resolveAll_flat flush indentWidth parts h
  | indent contents =>
    have inner := isItems_resolve_flat flush indentWidth false contents h
    exact ⟨inner.pending, fun width mode indent => inner.set width mode (indent + indentWidth)⟩
  | group _ contents => exact isItems_resolve_flat flush indentWidth false contents h
  | ifBreak _ flat =>
    exact isItems_resolve_flat flush indentWidth false flat (Nat.max_eq_zero_iff.mp h).2
  | conditional [] => exact ⟨rfl, fun _ _ _ _ _ => rfl⟩
  | conditional (variant :: _) =>
    exact isItems_resolve_flat flush indentWidth false variant (Nat.max_eq_zero_iff.mp h).1

theorem isItems_resolveAll_flat (flush : Flush) (indentWidth : Nat) (docs : List Doc)
    (h : maxSuffixDepth docs = 0) :
    (resolveAll flush indentWidth .flat docs []).IsItems (allOnOneLine docs) := by
  match docs with
  | [] => exact ⟨rfl, fun _ _ _ _ _ => rfl⟩
  | doc :: docs =>
    obtain ⟨hdoc, hdocs⟩ := Nat.max_eq_zero_iff.mp h
    have here := isItems_resolve_flat flush indentWidth (nextIsBreak .flat docs) doc hdoc
    rw [resolveAll, here.pending]
    exact here.seq (isItems_resolveAll_flat flush indentWidth docs hdocs)

end

/-- A flush that goes **one level deep** prints plain documents. -/
theorem flushAt_printsHeld (indentWidth depth : Nat) :
    Flush.PrintsHeld (flushAt indentWidth (depth + 1)) := by
  intro docs hplain
  rw [flushAt]
  induction docs with
  | nil => exact ⟨rfl, fun _ _ _ _ _ => rfl⟩
  | cons doc docs ih =>
    obtain ⟨hdoc, hdocs⟩ := List.forall_mem_cons.mp hplain
    have here := isItems_resolve_flat (flushAt indentWidth depth) indentWidth false doc hdoc
    rw [resolveEach, here.pending]
    exact here.seq (ih hdocs)

end Doc

/-! ## Following events -/

/-- What is resolved **follows events** with documents pending before: however it is set, it prints
what they emit, and what is waiting after them is pending.  Only plain documents ever are. -/
structure Resolved.Follows (r : Resolved) (pending : List Doc) (P : Mode → List Event → Prop) :
    Prop where
  plain : Doc.AllPlain r.pending
  set (width : Nat) (mode : Mode) (indent : Nat) (rest : Layout.Rest) (column : Nat) :
    ∃ events, P mode events ∧
      (r.layout.set width mode indent rest column).flatMap Piece.items =
      Event.emitted pending events ∧ r.pending = Event.stillWaiting pending events

namespace Resolved.Follows

variable {r r' : Resolved} {pending : List Doc} {P Q : Mode → List Event → Prop}

theorem imp (h : r.Follows pending P) (hPQ : ∀ mode events, P mode events → Q mode events) :
    r.Follows pending Q := by
  refine ⟨h.plain, fun width mode indent rest column => ?_⟩
  obtain ⟨events, hP, hset, hpending⟩ := h.set width mode indent rest column
  exact ⟨events, hPQ mode events hP, hset, hpending⟩

theorem nest (h : r.Follows pending P) (columns : Nat) :
    Follows ⟨.nest columns r.layout, r.pending⟩ pending P :=
  ⟨h.plain, fun width mode indent => h.set width mode (indent + columns)⟩

theorem seq (h : r.Follows pending P) (h' : r'.Follows r.pending Q) :
    Follows ⟨.seq r.layout r'.layout, r'.pending⟩ pending
      fun mode events => ∃ xs ys, P mode xs ∧ Q mode ys ∧ xs ++ ys = events := by
  refine ⟨h'.plain, fun width mode indent rest column => ?_⟩
  obtain ⟨xs, hP, hset, hpending⟩ := h.set width mode indent ((mode, r'.layout) :: rest) column
  obtain ⟨ys, hQ, hset', hpending'⟩ := h'.set width mode indent rest (Piece.columnAfterAll column
    (r.layout.set width mode indent ((mode, r'.layout) :: rest) column))
  refine ⟨xs ++ ys, ⟨xs, ys, hP, hQ, rfl⟩, ?_, ?_⟩
  · rw [Layout.set, List.flatMap_append, hset, hset', Event.emitted_append, hpending]
  · rw [Event.stillWaiting_append, ← hpending, hpending']

/-- A group that is left to the width is **flat in a flat one**, and flat or broken elsewhere. -/
theorem group (h : r.Follows pending P) :
    Follows ⟨.group r.layout, r.pending⟩ pending
      fun mode events => P .flat events ∨ mode = .broken ∧ P .broken events := by
  refine ⟨h.plain, fun width mode indent rest column => ?_⟩
  obtain ⟨xs, hP, hset, hpending⟩ := h.set width .flat indent rest column
  cases mode with
  | flat => exact ⟨xs, .inl hP, hset, hpending⟩
  | broken =>
    rw [Layout.set]
    split_ifs
    · exact ⟨xs, .inl hP, hset, hpending⟩
    · obtain ⟨ys, hP', hset', hpending'⟩ := h.set width .broken indent rest column
      exact ⟨ys, .inr ⟨rfl, hP'⟩, hset', hpending'⟩

/-- An attempt and its fallback, **with nothing pending** after either. -/
theorem firstFit {R : List Event → Prop} (h : r.Follows pending fun _ => R)
    (h' : r'.Follows pending fun _ => R) (hnone : r.pending = []) (hnone' : r'.pending = []) :
    Follows ⟨.firstFit r.layout r'.layout, []⟩ pending fun _ => R := by
  refine ⟨Doc.allPlain_nil, fun width mode indent rest column => ?_⟩
  rw [Layout.set]
  split_ifs
  · obtain ⟨events, hR, hset, hpending⟩ := h.set width mode indent [] column
    exact ⟨events, hR, hset, hnone.symm.trans hpending⟩
  · obtain ⟨events, hR, hset, hpending⟩ := h'.set width mode indent rest column
    exact ⟨events, hR, hset, hnone'.symm.trans hpending⟩

end Resolved.Follows

namespace Doc

variable {flush : Flush} {pending : List Doc}

/-! ## Lines -/

theorem certainBreak_follows (hflush : flush.PrintsHeld) (beforeBreak : Bool)
    (hp : AllPlain pending) :
    (certainBreak flush beforeBreak pending).Follows pending fun _ events => events = [.break] := by
  have hnone := pending_certainBreak hflush.clears beforeBreak hp
  refine ⟨hnone ▸ allPlain_nil, fun width mode indent rest column => ⟨[.break], rfl, ?_, hnone⟩⟩
  rw [certainBreak]
  cases hempty : pending.isEmpty with
  | true =>
    obtain rfl := List.isEmpty_iff.mp hempty
    cases beforeBreak <;> rfl
  | false =>
    have hmark (column : Nat) : ((if beforeBreak then Layout.blankLine else .newline).set width mode
        indent rest column).flatMap Piece.items = [.break] := by
      cases beforeBreak <;> rfl
    rw [if_neg Bool.false_ne_true, Layout.set, List.flatMap_append, (hflush pending hp).set, hmark]
    exact (List.append_nil _).symm

theorem resolveLine_follows (hflush : flush.PrintsHeld) (state : GroupState) (kind : LineKind)
    (beforeBreak : Bool) (hp : AllPlain pending) :
    (resolveLine flush state kind beforeBreak pending).Follows pending
      fun mode => Traces (.of state mode) (line kind) := by
  have hcertain := certainBreak_follows hflush beforeBreak hp
  have hhard : (certainBreak flush beforeBreak pending).Follows pending
      fun mode => Traces (.of state mode) (line .hard) :=
    hcertain.imp fun mode events h => h ▸ .hard _
  cases state with
  | broken => cases kind <;> exact hcertain.imp fun mode events h => h ▸ .forced _
  | flat =>
    cases kind with
    | hard => exact hhard
    | orSpace => exact ⟨hp, fun _ _ _ _ _ => ⟨[.text " "], .space, rfl, rfl⟩⟩
    | orNil => exact ⟨hp, fun _ _ _ _ _ => ⟨[], .noSpace, rfl, rfl⟩⟩
  | undecided =>
    cases kind with
    | hard => exact hhard
    | orSpace =>
      refine ⟨hp, ?_⟩
      rintro width (_ | _) indent rest column
      · exact ⟨[.text " "], .space, rfl, rfl⟩
      · exact ⟨[.loose], .loose nofun, rfl, rfl⟩
    | orNil =>
      refine ⟨hp, ?_⟩
      rintro width (_ | _) indent rest column
      · exact ⟨[], .noSpace, rfl, rfl⟩
      · exact ⟨[.loose], .loose nofun, rfl, rfl⟩

theorem resolveBoundary_follows (hflush : flush.PrintsHeld) (hp : AllPlain pending) :
    (resolveBoundary flush pending).Follows pending fun _ events => events = [.boundary] := by
  have hnone := pending_boundary hflush.clears hp
  refine ⟨hnone ▸ allPlain_nil, fun width mode indent rest column => ⟨[.boundary], rfl, ?_, hnone⟩⟩
  rw [resolveBoundary, Event.emitted, Event.emits]
  split_ifs
  · rfl
  · obtain ⟨_, rfl, hset, -⟩ :=
      (certainBreak_follows hflush false hp).set width mode indent rest column
    exact hset

/-! ## Groups and separators -/

/-- What is bound to break stands in a broken group.  The group of its own is forced, and any other
**fares by the width**. -/
theorem inGroup_follows {state : GroupState} {boundToBreak : Bool}
    (hbound : boundToBreak = true → state = .broken) {r : Resolved} {P : Fate → List Event → Prop}
    (h : r.Follows pending fun mode => P (.of (innerState state boundToBreak) mode)) :
    Resolved.Follows ⟨inGroup (innerState state boundToBreak) r.layout, r.pending⟩ pending
      fun mode events => ∃ inner, (Fate.of state mode).Inside boundToBreak inner ∧
        P inner events := by
  cases boundToBreak with
  | true =>
    obtain rfl := hbound rfl
    exact h.imp fun mode events hP => ⟨.forced, by simp [Fate.of, Fate.Inside], hP⟩
  | false =>
    cases state with
    | flat => exact h.imp fun mode events hP => ⟨.flat, rfl, hP⟩
    | broken =>
      refine Resolved.Follows.imp h.group fun mode events hP => ?_
      obtain hflat | ⟨-, hcrowded⟩ := hP
      · exact ⟨.flat, by simp [Fate.of, Fate.Inside], hflat⟩
      · exact ⟨.crowded, by simp [Fate.of, Fate.Inside], hcrowded⟩
    | undecided =>
      refine Resolved.Follows.imp h.group fun mode events hP => ?_
      obtain hflat | ⟨rfl, hcrowded⟩ := hP
      · exact ⟨.flat, by cases mode <;> simp [Fate.of, Fate.Inside], hflat⟩
      · exact ⟨.crowded, by simp [Fate.of, Fate.Inside], hcrowded⟩

/-- Events of **one separator**. -/
def TracesSeparator (separator : Doc) (events : List Event) : Prop :=
  ∃ inner, (separator.willBreak = true → inner = .forced) ∧ inner ≠ .crowded ∧
    Traces inner separator events

theorem Traces.separator {separator : Doc} {events : List Event}
    (h : Traces .forced separator events) : TracesSeparator separator events :=
  ⟨.forced, fun _ => rfl, nofun, h⟩

/-- A space that is **tried before a break**, with nothing pending. -/
theorem softBreak_follows :
    Resolved.Follows ⟨.group (.softBreak 1), []⟩ [] fun _ => TracesSeparator (line .orSpace) := by
  have hline : Resolved.Follows ⟨.softBreak 1, []⟩ [] fun _ => TracesSeparator (line .orSpace) := by
    refine ⟨allPlain_nil, ?_⟩
    rintro width (_ | _) indent rest column
    · exact ⟨[.text " "], ⟨.flat, nofun, nofun, .space⟩, rfl, rfl⟩
    · exact ⟨[.break], (Traces.forced .orSpace).separator, rfl, rfl⟩
  exact Resolved.Follows.imp hline.group fun _ _ h => h.elim id And.right

/-! ## Documents

By recursion on the document, one statement for each function of the resolver. -/

mutual

/-- **Resolving a document** follows its events. -/
theorem resolve_follows (hflush : flush.PrintsHeld) (indentWidth : Nat) (state : GroupState)
    (beforeBreak : Bool) (doc : Doc) (h : doc.ChoiceFree) (hdepth : doc.suffixDepth ≤ 1)
    (hstate : doc.willBreak = true → state = .broken) {pending : List Doc} (hp : AllPlain pending) :
    (resolve flush indentWidth state beforeBreak doc pending).Follows pending
      fun mode => Traces (.of state mode) doc := by
  match doc, h with
  | text s, _ => exact ⟨hp, fun _ _ _ _ _ => ⟨[.text s], .text _ s, rfl, rfl⟩⟩
  | concat docs, .concat h =>
    exact resolveAll_follows hflush indentWidth state docs h hdepth hstate hp
  | line kind, _ => exact resolveLine_follows hflush state kind beforeBreak hp
  | indent contents, .indent h =>
    exact ((resolve_follows hflush indentWidth state false contents h hdepth hstate hp).nest
      indentWidth).imp fun _ _ => .indent
  | group shouldBreak contents, .group _ h =>
    -- what is bound to break is only ever inside groups that are broken
    have hinner (hbreak : contents.willBreak = true) :
        innerState state (shouldBreak || contents.willBreak) = .broken := by
      have hbound : (shouldBreak || contents.willBreak) = true := by rw [hbreak, Bool.or_true]
      rw [hbound, hstate hbound]
      rfl
    exact (inGroup_follows hstate
      (resolve_follows hflush indentWidth _ false contents h hdepth hinner hp)).imp
        fun _ _ ⟨_, inside, h⟩ => .group inside h
  | fill parts, .fill h =>
    have hwrapped (hflat : state ≠ .flat) :=
      (fillFromContent_follows hflush indentWidth state hflat parts h hdepth hstate hp).imp
        fun _ _ => Traces.fill
    cases state with
    | flat =>
      exact (resolveAll_follows hflush indentWidth .flat parts h hdepth hstate hp).imp
        fun _ _ => .flatFill
    | broken | undecided => exact hwrapped nofun
  | lineSuffix contents, _ =>
    have hplain : contents.suffixDepth = 0 := Nat.le_zero.mp (Nat.le_of_succ_le_succ hdepth)
    exact ⟨List.forall_mem_append.mpr ⟨hp, List.forall_mem_singleton.mpr hplain⟩,
      fun _ _ _ _ _ => ⟨[.suffix contents], .lineSuffix _ _, rfl, rfl⟩⟩
  | suffixBoundary, _ =>
    exact (resolveBoundary_follows hflush hp).imp fun _ _ h => h ▸ .suffixBoundary _
termination_by structural doc

theorem resolveAll_follows (hflush : flush.PrintsHeld) (indentWidth : Nat) (state : GroupState)
    (docs : List Doc) (h : ∀ doc ∈ docs, doc.ChoiceFree) (hdepth : maxSuffixDepth docs ≤ 1)
    (hstate : anyWillBreak docs = true → state = .broken) {pending : List Doc}
    (hp : AllPlain pending) :
    (resolveAll flush indentWidth state docs pending).Follows pending
      fun mode => Traces (.of state mode) (concat docs) := by
  match docs with
  | [] => exact ⟨hp, fun _ _ _ _ _ => ⟨[], .nil _, rfl, rfl⟩⟩
  | doc :: docs =>
    obtain ⟨hdoc, hdocs⟩ := List.forall_mem_cons.mp h
    obtain ⟨hdepth, hdepths⟩ := Nat.max_le.mp hdepth
    rw [anyWillBreak, Bool.or_eq_true, or_imp] at hstate
    have hhere := resolve_follows hflush indentWidth state (nextIsBreak state docs) doc hdoc hdepth
      hstate.1 hp
    exact (hhere.seq (resolveAll_follows hflush indentWidth state docs hdocs hdepths hstate.2
      hhere.plain)).imp fun _ _ ⟨_, _, h, h', heq⟩ => heq ▸ .cons h h'
termination_by structural docs

theorem fillFromContent_follows (hflush : flush.PrintsHeld) (indentWidth : Nat) (state : GroupState)
    (hflat : state ≠ .flat) (parts : List Doc) (h : ∀ doc ∈ parts, doc.ChoiceFree)
    (hdepth : maxSuffixDepth parts ≤ 1) (hstate : anyWillBreak parts = true → state = .broken)
    {pending : List Doc} (hp : AllPlain pending) :
    (fillFromContent flush indentWidth parts pending).Follows pending
      fun mode => ContentTraces (.of state mode) parts := by
  match parts with
  | [] => exact ⟨hp, fun _ _ _ _ _ => ⟨[], .nil _, rfl, rfl⟩⟩
  | content :: parts =>
    obtain ⟨hcontent, hparts⟩ := List.forall_mem_cons.mp h
    obtain ⟨hdepth, hdepths⟩ := Nat.max_le.mp hdepth
    rw [anyWillBreak, Bool.or_eq_true, or_imp] at hstate
    -- in a flat group a fill is resolved like a list, so its contents never see that state
    have hsame : innerState .undecided content.willBreak = innerState state content.willBreak := by
      cases state with
      | flat => exact absurd rfl hflat
      | broken | undecided => rfl
    have hinner (hbreak : content.willBreak = true) :
        innerState state content.willBreak = .broken := by
      rw [← hsame, hbreak]
      rfl
    have hhere := inGroup_follows (P := (Traces · content)) hstate.1
      (resolve_follows hflush indentWidth _ false content hcontent hdepth hinner hp)
    rw [fillFromContent, hsame]
    exact (hhere.seq (fillFromSeparator_follows hflush indentWidth state hflat parts hparts hdepths
      hstate.2 hhere.plain)).imp fun _ _ ⟨_, _, ⟨_, inside, h⟩, h', heq⟩ => heq ▸ .cons inside h h'
termination_by structural parts

theorem fillFromSeparator_follows (hflush : flush.PrintsHeld) (indentWidth : Nat)
    (state : GroupState) (hflat : state ≠ .flat) (parts : List Doc)
    (h : ∀ doc ∈ parts, doc.ChoiceFree) (hdepth : maxSuffixDepth parts ≤ 1)
    (hstate : anyWillBreak parts = true → state = .broken) {pending : List Doc}
    (hp : AllPlain pending) :
    (fillFromSeparator flush indentWidth parts pending).Follows pending
      fun mode => SeparatorTraces (.of state mode) parts := by
  match parts with
  | [] => exact ⟨hp, fun _ _ _ _ _ => ⟨[], .nil _, rfl, rfl⟩⟩
  | separator :: parts =>
    obtain ⟨hseparator, hparts⟩ := List.forall_mem_cons.mp h
    obtain ⟨hdepth, hdepths⟩ := Nat.max_le.mp hdepth
    rw [anyWillBreak, Bool.or_eq_true, or_imp] at hstate
    have hbroken {pending : List Doc} (hp : AllPlain pending) :
        (resolve flush indentWidth .broken false separator pending).Follows pending
          fun _ => TracesSeparator separator :=
      (resolve_follows hflush indentWidth .broken false separator hseparator hdepth (fun _ => rfl)
        hp).imp fun _ _ => Traces.separator
    have hhere : (resolveSeparator flush indentWidth (nextIsBreak .undecided parts) separator
        pending).Follows pending fun _ => TracesSeparator separator := by
      obtain ⟨rfl, heq⟩ | heq | ⟨rfl, rfl, heq⟩ | ⟨rfl, hnobreak, hnone, heq⟩ :=
        resolveSeparator_cases flush indentWidth (nextIsBreak .undecided parts)
          hseparator.suffixDepth_eq_zero pending
      · rw [heq]
        exact (certainBreak_follows hflush _ hp).imp fun _ _ h =>
          h ▸ (Traces.hard .forced).separator
      · rw [heq]
        exact hbroken hp
      · rw [heq]
        exact softBreak_follows
      · have hattempt := resolve_follows hflush indentWidth .flat false separator hseparator hdepth
          (by simp [hnobreak]) hp
        rw [heq]
        refine Resolved.Follows.firstFit (hattempt.imp fun _ _ h => ?_) (hbroken hp) (hnone .flat)
          (hnone .broken)
        exact ⟨.flat, by simp [hnobreak], nofun, h⟩
    exact (hhere.seq (fillFromContent_follows hflush indentWidth state hflat parts hparts hdepths
      hstate.2 hhere.plain)).imp
        fun _ _ ⟨_, _, ⟨_, bound, settled, h⟩, h', heq⟩ => heq ▸ .cons bound settled h h'
termination_by structural parts

end

/-! ## At every width -/

/-- The layout of a document without choices **prints its events**, and what is
waiting after them. -/
theorem exists_items_pieces (o : LayoutOptions) {doc : Doc} (h : doc.ChoiceFree)
    (hdepth : doc.suffixDepth ≤ 1) :
    ∃ events, Traces .forced doc events ∧
      (doc.pieces o).flatMap Piece.items = Event.printed events := by
  have hflush := flushAt_printsHeld o.indentWidth 0
  have hdoc :=
    resolve_follows hflush o.indentWidth .broken false doc h hdepth (fun _ => rfl) allPlain_nil
  rw [resolve_eq_alone o.indentWidth hdepth] at hdoc
  rw [pieces, layout_eq_finish o.indentWidth hdepth, Flush.finish, Layout.pieces]
  split_ifs with hnone
  · obtain ⟨events, htraces, hset, hwaiting⟩ := hdoc.set o.printWidth .broken 0 [] 0
    refine ⟨events, htraces, ?_⟩
    rw [hset, Event.printed, ← hwaiting, List.isEmpty_iff.mp hnone]
    exact (List.append_nil _).symm
  · obtain ⟨events, htraces, hset, hwaiting⟩ := hdoc.set o.printWidth .broken 0
      [(.broken, (flushAt o.indentWidth 1 (doc.alone o.indentWidth).pending).layout)] 0
    refine ⟨events, htraces, ?_⟩
    rw [Layout.set, List.flatMap_append, hset, (hflush _ hdoc.plain).set, Event.printed, hwaiting]

/-- **A suffix is printed at the end of its own line.**  Typesetting a document without
choices, whose suffixes hold nothing back, prints the events of the document, and every
suffix ends its line. -/
theorem exists_traces_typeset (o : LayoutOptions) (hindent : 0 < o.indentWidth) {doc : Doc}
    (h : doc.ChoiceFree) (hdepth : doc.suffixDepth ≤ 1) :
    ∃ events output, Traces .forced doc events ∧ doc.typeset o = .ok output ∧
      Item.Spelled o (Event.printed events) output.toList ∧ Event.SuffixesEndLines events := by
  obtain ⟨events, htraces, hitems⟩ := exists_items_pieces o h hdepth
  refine ⟨events, Piece.write o (doc.pieces o), htraces, by rw [typeset, if_neg hindent.ne'], ?_,
    Event.suffixesEndLines events⟩
  rw [Piece.toList_write, ← hitems]
  exact Item.spelled_pieces o _

/-- The comment waits past a group that fits, for the break behind it. -/
theorem exists_traces_typeset_comment :
    let doc := concat [text "f(", lineSuffix (text " // a"),
      indent (concat [group false (concat [text "x,", line .orSpace, text "y"]), line .orNil]),
      text ")"]
    0 < ({} : LayoutOptions).indentWidth ∧ doc.ChoiceFree ∧ doc.suffixDepth ≤ 1 ∧
      ∃ events output, Traces .forced doc events ∧ doc.typeset {} = .ok output ∧
        Item.Spelled {} (Event.printed events) output.toList ∧ Event.SuffixesEndLines events := by
  intro doc
  have hgroup : (concat [text "x,", line .orSpace, text "y"]).ChoiceFree := by
    refine .concat ?_
    rintro _ (_ | ⟨_, _ | ⟨_, _ | ⟨_, ⟨⟩⟩⟩⟩)
    exacts [.text _, .line _, .text _]
  have hinside : (concat [group false (concat [text "x,", line .orSpace, text "y"]),
      line .orNil]).ChoiceFree := by
    refine .concat ?_
    rintro _ (_ | ⟨_, _ | ⟨_, ⟨⟩⟩⟩)
    exacts [.group false hgroup, .line _]
  have hdoc : doc.ChoiceFree := by
    refine .concat ?_
    rintro _ (_ | ⟨_, _ | ⟨_, _ | ⟨_, _ | ⟨_, ⟨⟩⟩⟩⟩⟩)
    exacts [.text _, .lineSuffix (.text _), .indent hinside, .text _]
  exact ⟨by decide, hdoc, by decide, exists_traces_typeset {} (by decide) hdoc (by decide)⟩

/-- A group that the width breaks **outruns what is pending**: the comment behind the first text is
printed at the end of the second line. -/
theorem typeset_group_outruns :
    (concat [text "a", lineSuffix (text " // b"),
      group false (concat [text "x", line .orSpace, text "y"])]).typeset { printWidth := 3 } =
      .ok "ax\ny // b" := by
  decide

end Doc

end Reflow
