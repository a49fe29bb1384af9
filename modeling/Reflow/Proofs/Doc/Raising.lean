import Reflow.Proofs.Doc.Choosing
import Reflow.Proofs.Doc.LineEnds

/-!
# Proofs/Doc/Raising — what is held back is printed or still pending

Resolving a document raises what it holds back, in order (`Doc.raised`), and every line that is sure
to end prints what is pending.  A choice that is left to the width is resolved both ways, one after
the other and through the one list of pending documents, so a line that ends on one side takes along
what is then missing on the other.  In a document without such a choice nothing is ever lost
(`Doc.Lossless`, `Doc.resolve_raises`).
-/

namespace Reflow

open Doc (held)

/-! ## Ends of lines -/

/-- Documents printed **at ends of lines**, in order: some of them right before a line break, and
the others behind it. -/
inductive Item.EndLines : List Doc → List Item → Prop
  | nil (items : List Item) : EndLines [] items
  | cons (before : List Item) (docs : List Doc) {others : List Doc} {items : List Item}
      (h : EndLines others items) :
          EndLines (docs ++ others) (before ++ (held docs ++ .break :: items))

namespace Item.EndLines

variable {docs others : List Doc} {items more : List Item}

theorem prepend (h : EndLines docs items) (before : List Item) :
    EndLines docs (before ++ items) := by
  cases h with
  | nil => exact .nil _
  | cons before' docs h =>
    rw [← List.append_assoc]
    exact .cons _ docs h

/-- What is held back by one and by the other is printed **at ends of lines in this order**. -/
theorem append (h : EndLines docs items) (h' : EndLines others more) :
    EndLines (docs ++ others) (items ++ more) := by
  induction h with
  | nil items => exact h'.prepend items
  | cons before docs _ ih =>
    rw [List.append_assoc, List.append_assoc, List.append_assoc, List.cons_append]
    exact .cons before docs ih

/-- What ends a line **is printed**. -/
theorem mem (h : EndLines docs items) {doc : Doc} (hdoc : doc ∈ docs) {item : Item}
    (hitem : item ∈ doc.onOneLine) : item ∈ items := by
  induction h with
  | nil => cases hdoc
  | cons before docs _ ih =>
    refine List.mem_append_right before ?_
    obtain hdoc | hdoc := List.mem_append.mp hdoc
    · exact List.mem_append_left _ (List.mem_flatMap.mpr ⟨doc, hdoc, hitem⟩)
    · exact List.mem_append_right _ (List.mem_cons_of_mem _ (ih hdoc))

end Item.EndLines

namespace Event

open Item (EndLines)

/-- Whatever is met, **what waits is printed at the end of a line or still waits** after it. -/
theorem exists_endLines_emitted (waiting : List Doc) (events : List Event) :
    ∃ docs, EndLines docs (emitted waiting events) ∧
      docs ++ stillWaiting waiting events = waiting ++ events.filterMap suffix? := by
  induction events generalizing waiting with
  | nil => exact ⟨[], .nil _, (List.append_nil waiting).symm⟩
  | cons event events ih =>
    obtain ⟨docs, hdocs, heq⟩ := ih (event.leaves waiting)
    -- the end of a line prints all that is waiting, and nothing waits behind it
    have hends (hleaves : event.leaves waiting = []) (hsuffix : event.suffix? = none)
        (hemits : event.emits waiting = held waiting ++ [.break]) :
        ∃ docs, EndLines docs (emitted waiting (event :: events)) ∧
          docs ++ stillWaiting waiting (event :: events) =
            waiting ++ (event :: events).filterMap suffix? := by
      rw [hleaves] at hdocs heq
      refine ⟨waiting ++ docs, ?_, ?_⟩
      · rw [emitted, hemits, hleaves, List.append_assoc]
        exact .cons [] waiting hdocs
      · rw [stillWaiting, hleaves, List.append_assoc, heq, List.filterMap_cons_none hsuffix]
        rfl
    cases event with
    | text s => exact ⟨docs, hdocs.prepend _, heq⟩
    | loose => exact ⟨docs, hdocs.prepend _, heq⟩
    | suffix contents =>
      refine ⟨docs, hdocs, heq.trans ?_⟩
      rw [leaves, List.append_assoc]
      rfl
    | «break» => exact hends rfl rfl rfl
    | boundary =>
      cases waiting with
      | nil => exact ⟨docs, hdocs, heq⟩
      | cons doc waiting => exact hends rfl rfl rfl

/-- Up to **a boundary and the text behind it** all that waits is printed at ends of lines. -/
theorem endLines_boundary (waiting : List Doc) (events : List Event) (s : String) :
    ∃ items, emitted waiting (events ++ [.boundary, .text s]) = items ++ [.text s] ∧
      EndLines (waiting ++ events.filterMap suffix?) items ∧
      stillWaiting waiting (events ++ [.boundary, .text s]) = [] := by
  obtain ⟨docs, hdocs, heq⟩ := exists_endLines_emitted waiting events
  have hlast : EndLines (stillWaiting waiting events)
      (emits (stillWaiting waiting events) .boundary) := by
    rw [emits]
    cases stillWaiting waiting events with
    | nil => exact .nil _
    | cons doc later =>
      have h := Item.EndLines.cons [] (doc :: later) (.nil [])
      rwa [List.append_nil] at h
  refine ⟨emitted waiting events ++ emits (stillWaiting waiting events) .boundary, ?_, ?_, ?_⟩
  · rw [emitted_append, List.append_assoc]
    rfl
  · rw [← heq]
    exact hdocs.append hlast
  · rw [stillWaiting_append]
    rfl

end Event

namespace Doc

/-! ## What is raised -/

mutual

/-- What a document **holds back** in a flat group or elsewhere, in order. -/
def raised (mode : Mode) : Doc → List Doc
  | text _ | line _ | suffixBoundary => []
  | concat docs | fill docs => allRaised mode docs
  | indent doc | group _ doc => doc.raised mode
  | ifBreak broken flat =>
    match mode with
    | .flat => flat.raised .flat
    | .broken => broken.raised .broken
  | conditional variants =>
    match mode with
    | .flat => firstRaised variants
    | .broken => lastRaised variants
  | lineSuffix contents => [contents]

def allRaised (mode : Mode) : List Doc → List Doc
  | [] => []
  | doc :: docs => doc.raised mode ++ allRaised mode docs

def firstRaised : List Doc → List Doc
  | [] => []
  | doc :: _ => doc.raised .flat

def lastRaised : List Doc → List Doc
  | [] => []
  | doc :: docs => if docs.isEmpty then doc.raised .broken else lastRaised docs

end

mutual

/-- What holds nothing back **raises nothing**. -/
theorem raised_of_suffixDepth (mode : Mode) (doc : Doc) (h : doc.suffixDepth = 0) :
    doc.raised mode = [] := by
  match doc with
  | text _ | line _ | suffixBoundary => rfl
  | concat docs | fill docs => exact allRaised_of_suffixDepth mode docs h
  | indent doc | group _ doc => exact raised_of_suffixDepth mode doc h
  | ifBreak broken flat =>
    obtain ⟨hbroken, hflat⟩ := Nat.max_eq_zero_iff.mp h
    cases mode with
    | flat => exact raised_of_suffixDepth .flat flat hflat
    | broken => exact raised_of_suffixDepth .broken broken hbroken
  | conditional variants =>
    cases mode with
    | flat => exact firstRaised_of_suffixDepth variants h
    | broken => exact lastRaised_of_suffixDepth variants h
  | lineSuffix contents => exact absurd h (Nat.succ_ne_zero _)

theorem allRaised_of_suffixDepth (mode : Mode) (docs : List Doc) (h : maxSuffixDepth docs = 0) :
    allRaised mode docs = [] := by
  match docs with
  | [] => rfl
  | doc :: docs =>
    obtain ⟨hdoc, hdocs⟩ := Nat.max_eq_zero_iff.mp h
    rw [allRaised, raised_of_suffixDepth mode doc hdoc, allRaised_of_suffixDepth mode docs hdocs]
    rfl

theorem firstRaised_of_suffixDepth (variants : List Doc) (h : maxSuffixDepth variants = 0) :
    firstRaised variants = [] := by
  match variants with
  | [] => rfl
  | variant :: others => exact raised_of_suffixDepth .flat variant (Nat.max_eq_zero_iff.mp h).1

theorem lastRaised_of_suffixDepth (variants : List Doc) (h : maxSuffixDepth variants = 0) :
    lastRaised variants = [] := by
  match variants with
  | [] => rfl
  | variant :: others =>
    obtain ⟨hvariant, hothers⟩ := Nat.max_eq_zero_iff.mp h
    rw [lastRaised]
    split_ifs
    · exact raised_of_suffixDepth .broken variant hvariant
    · exact lastRaised_of_suffixDepth others hothers

end

/-! ## Choices that lose nothing -/

mutual

/-- Whether a document **ends no line** in a group that the width decides.  The parts of a fill end
a line for what is pending. -/
def keepsLine : Doc → Bool
  | text _ => true
  | line kind => kind != .hard
  | concat docs => allKeepLine docs
  | indent doc => doc.keepsLine
  | group shouldBreak doc => !shouldBreak && doc.keepsLine
  | ifBreak broken flat => broken.keepsLine && (!flat.willBreak && !flat.hasBoundary)
  | fill _ | conditional _ | lineSuffix _ | suffixBoundary => false

def allKeepLine : List Doc → Bool
  | [] => true
  | doc :: docs => doc.keepsLine && allKeepLine docs

end

mutual

theorem willBreak_of_keepsLine (doc : Doc) (h : doc.keepsLine = true) : doc.willBreak = false := by
  match doc with
  | text _ => rfl
  | line kind => cases kind <;> first | rfl | cases h
  | concat docs => exact anyWillBreak_of_allKeepLine docs h
  | indent doc => exact willBreak_of_keepsLine doc h
  | group shouldBreak doc =>
    obtain ⟨hforced, hdoc⟩ := Bool.and_eq_true_iff.mp h
    rw [willBreak, willBreak_of_keepsLine doc hdoc]
    simpa using hforced
  | ifBreak broken flat =>
    obtain ⟨hbroken, hflat⟩ := Bool.and_eq_true_iff.mp h
    rw [willBreak, willBreak_of_keepsLine broken hbroken]
    simpa using (Bool.and_eq_true_iff.mp hflat).1

theorem anyWillBreak_of_allKeepLine (docs : List Doc) (h : allKeepLine docs = true) :
    anyWillBreak docs = false := by
  match docs with
  | [] => rfl
  | doc :: docs =>
    obtain ⟨hdoc, hdocs⟩ := Bool.and_eq_true_iff.mp h
    rw [anyWillBreak, willBreak_of_keepsLine doc hdoc, anyWillBreak_of_allKeepLine docs hdocs]
    rfl

end

mutual

/-- A document that ends no line **leaves pending what is pending**. -/
theorem pending_resolve_of_keepsLine (flush : Flush) (indentWidth : Nat) (beforeBreak : Bool)
    (doc : Doc) (h : doc.keepsLine = true) (pending : List Doc) :
    (resolve flush indentWidth .undecided beforeBreak doc pending).pending = pending := by
  match doc with
  | text _ => rfl
  | line kind => cases kind <;> first | rfl | cases h
  | concat docs => exact pending_resolveAll_of_keepsLine flush indentWidth docs h pending
  | indent doc => exact pending_resolve_of_keepsLine flush indentWidth false doc h pending
  | group shouldBreak doc =>
    obtain ⟨hforced, hdoc⟩ := Bool.and_eq_true_iff.mp h
    have hbound : (shouldBreak || doc.willBreak) = false := by
      rw [willBreak_of_keepsLine doc hdoc]
      simpa using hforced
    rw [resolve, hbound]
    exact pending_resolve_of_keepsLine flush indentWidth false doc hdoc pending
  | ifBreak broken flat =>
    obtain ⟨hbroken, hflat⟩ := Bool.and_eq_true_iff.mp h
    obtain ⟨hbreak, hboundary⟩ := Bool.and_eq_true_iff.mp hflat
    rw [resolve]
    simp only [resolve_flat_of_pending flush indentWidth false flat (by simpa using hbreak)
      (by simpa using hboundary) pending]
    exact pending_resolve_of_keepsLine flush indentWidth false broken hbroken pending

theorem pending_resolveAll_of_keepsLine (flush : Flush) (indentWidth : Nat) (docs : List Doc)
    (h : allKeepLine docs = true) (pending : List Doc) :
    (resolveAll flush indentWidth .undecided docs pending).pending = pending := by
  match docs with
  | [] => rfl
  | doc :: docs =>
    obtain ⟨hdoc, hdocs⟩ := Bool.and_eq_true_iff.mp h
    rw [resolveAll, pending_resolve_of_keepsLine flush indentWidth _ doc hdoc pending]
    exact pending_resolveAll_of_keepsLine flush indentWidth docs hdocs pending

end

/-- A document of which **nothing that is held back gets lost**.  A choice by the mode is bound to
break or ends no line on either side, and of variants that hold something back all but the last are
bound to break.
-/
inductive Lossless : Doc → Prop
  | text (s : String) : Lossless (text s)
  | line (kind : LineKind) : Lossless (line kind)
  | suffixBoundary : Lossless suffixBoundary
  | concat {docs : List Doc} (h : ∀ doc ∈ docs, Lossless doc) : Lossless (concat docs)
  | fill {docs : List Doc} (h : ∀ doc ∈ docs, Lossless doc) : Lossless (fill docs)
  | indent {doc : Doc} (h : Lossless doc) : Lossless (indent doc)
  | group (shouldBreak : Bool) {doc : Doc} (h : Lossless doc) : Lossless (group shouldBreak doc)
  | ifBreak {broken flat : Doc} (hb : Lossless broken) (hf : Lossless flat)
      (keeps : (ifBreak broken flat).willBreak = true ∨ (ifBreak broken flat).keepsLine = true) :
      Lossless (ifBreak broken flat)
  | conditional {variants : List Doc} (h : ∀ variant ∈ variants, Lossless variant)
      (back : (∀ variant ∈ variants, variant.suffixDepth = 0) ∨
        ∀ variant ∈ variants.dropLast, variant.willBreak = true) : Lossless (conditional variants)
  | lineSuffix {doc : Doc} (plain : doc.suffixDepth = 0) : Lossless (lineSuffix doc)

namespace Lossless

variable {doc : Doc}

theorem append {a b : Doc} (ha : a.Lossless) (hb : b.Lossless) : (a ++ b).Lossless := by
  change (Doc.append a b).Lossless
  rw [Doc.append.eq_def]
  split
  · cases ha with
    | concat h => exact .concat (List.forall_mem_append.mpr ⟨h, List.forall_mem_singleton.mpr hb⟩)
  · exact .concat (List.forall_mem_cons.mpr ⟨ha, List.forall_mem_singleton.mpr hb⟩)

/-- It holds back **at most one level deep**. -/
theorem suffixDepth_le (h : doc.Lossless) : doc.suffixDepth ≤ 1 := by
  induction h with
  | text | line | suffixBoundary => exact Nat.zero_le 1
  | concat _ ih | fill _ ih | conditional _ _ ih => exact maxSuffixDepth_le_iff.mpr ih
  | indent _ ih => exact ih
  | group _ _ ih => exact ih
  | ifBreak _ _ _ ihb ihf => exact Nat.max_le.mpr ⟨ihb, ihf⟩
  | lineSuffix plain => exact Nat.succ_le_succ plain.le

/-- What is not bound to break **holds nothing back**. -/
theorem suffixDepth_eq_zero (h : doc.Lossless) (hbreak : doc.willBreak = false) :
    doc.suffixDepth = 0 := by
  induction h with
  | text | line | suffixBoundary => rfl
  | concat _ ih | fill _ ih =>
    rw [willBreak, anyWillBreak_eq_any, List.any_eq_false] at hbreak
    exact (maxSuffixDepth_eq_zero_iff _).mpr fun doc hdoc =>
      ih doc hdoc (Bool.eq_false_iff.mpr (hbreak doc hdoc))
  | indent _ ih => exact ih hbreak
  | group _ _ ih => exact ih (Bool.or_eq_false_iff.mp hbreak).2
  | ifBreak _ _ _ ihb ihf =>
    obtain ⟨hbroken, hflat⟩ := Bool.or_eq_false_iff.mp hbreak
    exact Nat.max_eq_zero_iff.mpr ⟨ihb hbroken, ihf hflat⟩
  | @conditional variants _ back ih =>
    refine (maxSuffixDepth_eq_zero_iff _).mpr ?_
    obtain hnone | hbound := back
    · exact hnone
    · match variants with
      | [] => exact nofun
      | [variant] => exact List.forall_mem_singleton.mpr (ih variant List.mem_cons_self hbreak)
      | first :: next :: others =>
        have hfirst : first.willBreak = true := hbound first (by simp)
        rw [willBreak, firstWillBreak, hfirst] at hbreak
        cases hbreak
  | lineSuffix => cases hbreak

end Lossless

end Doc

/-! ## Raising

Resolving follows events of which only what they hold back matters here. -/

/-- What does not depend on the mode holds **in a group of any state**. -/
theorem Resolved.Follows.inGroup {r : Resolved} {pending : List Doc} {R : List Event → Prop}
    (h : r.Follows pending fun _ => R) (state : GroupState) :
    Follows ⟨Doc.inGroup state r.layout, r.pending⟩ pending fun _ => R := by
  cases state with
  | flat | broken => exact h
  | undecided => exact (Follows.group h).imp fun _ _ hR => hR.elim id And.right

/-- What is resolved **raises these documents**: it follows events that hold them back, in order. -/
def Resolved.Raises (r : Resolved) (pending docs : List Doc) : Prop :=
  r.Follows pending fun _ events => events.filterMap Event.suffix? = docs

namespace Resolved.Raises

variable {r r' : Resolved} {pending docs docs' : List Doc}

theorem seq (h : r.Raises pending docs) (h' : r'.Raises r.pending docs') :
    Raises ⟨.seq r.layout r'.layout, r'.pending⟩ pending (docs ++ docs') := by
  refine (Follows.seq h h').imp ?_
  rintro _ _ ⟨xs, ys, hxs, hys, rfl⟩
  rw [List.filterMap_append, hxs, hys]

/-- Of a choice by the mode that leaves pending what is pending, **both sides raise alike**. -/
theorem choice (h : r.Raises pending docs) (h' : r'.Raises pending docs)
    (hsame : r.pending = r'.pending) :
    Raises ⟨.choice r.layout r'.layout, r'.pending⟩ pending docs := by
  refine ⟨h'.plain, ?_⟩
  rintro width (_ | _) indent rest column
  · rw [← hsame]
    exact h.set width .flat indent rest column
  · exact h'.set width .broken indent rest column

end Resolved.Raises

namespace Doc

variable {flush : Flush} {pending : List Doc}

theorem certainBreak_raises (hflush : flush.PrintsHeld) (beforeBreak : Bool)
    (hp : AllPlain pending) :
    (certainBreak flush beforeBreak pending).Raises pending [] :=
  (certainBreak_follows hflush beforeBreak hp).imp fun _ _ h => h ▸ rfl

/-- A line **holds nothing back**. -/
theorem filterMap_suffix?_line {fate : Fate} {kind : LineKind} {events : List Event}
    (h : Traces fate (line kind) events) : events.filterMap Event.suffix? = [] := by
  cases h <;> rfl

/-- A line holds nothing back: it **prints what is pending**, or leaves it there. -/
theorem resolveLine_raises (hflush : flush.PrintsHeld) (state : GroupState) (kind : LineKind)
    (beforeBreak : Bool) (hp : AllPlain pending) :
    (resolveLine flush state kind beforeBreak pending).Raises pending [] :=
  (resolveLine_follows hflush state kind beforeBreak hp).imp fun _ _ => filterMap_suffix?_line

theorem resolveBoundary_raises (hflush : flush.PrintsHeld) (hp : AllPlain pending) :
    (resolveBoundary flush pending).Raises pending [] :=
  (resolveBoundary_follows hflush hp).imp fun _ _ h => h ▸ rfl

/-- In a fill a space that is tried **raises nothing**. -/
theorem softBreak_raises : Resolved.Raises ⟨.group (.softBreak 1), []⟩ [] [] :=
  softBreak_follows.imp fun _ _ ⟨_, _, _, h⟩ => filterMap_suffix?_line h

/-- What is bound to break is **never left to the width**. -/
theorem innerState_ne_undecided (state : GroupState) {breaks : Bool} (h : breaks = true) :
    innerState state breaks ≠ .undecided := by
  rw [h]
  cases state <;> nofun

/-- In a layout that is broken a group is flat **only inside a flat one**. -/
theorem modeIn_innerState (state : GroupState) (breaks : Bool) :
    (innerState state breaks).modeIn .broken = state.modeIn .broken := by
  cases state <;> cases breaks <;> rfl

/-- A choice that is left to the width and ends no line **raises nothing**,
whichever side is printed. -/
theorem ifBreak_raises (indentWidth : Nat) (beforeBreak : Bool) {broken flat : Doc}
    (hb : broken.Lossless) (hf : flat.Lossless) (keeps : (ifBreak broken flat).keepsLine = true)
    (hwhenFlat : (resolve flush indentWidth .flat false flat pending).Raises pending
      (flat.raised .flat))
    (hwhenBroken : (resolve flush indentWidth .undecided false broken pending).Raises pending
      (broken.raised .broken)) :
    (resolve flush indentWidth .undecided beforeBreak (ifBreak broken flat) pending).Raises pending
      (broken.raised .broken) := by
  obtain ⟨hbroken, hflat⟩ := Bool.and_eq_true_iff.mp keeps
  obtain ⟨hbreak, hboundary⟩ := Bool.and_eq_true_iff.mp hflat
  rw [Bool.not_eq_true'] at hbreak hboundary
  have hpending : (resolve flush indentWidth .flat false flat pending).pending = pending := by
    rw [resolve_flat_of_pending flush indentWidth false flat hbreak hboundary]
  have hnone := raised_of_suffixDepth .broken broken
    (hb.suffixDepth_eq_zero (willBreak_of_keepsLine broken hbroken))
  rw [raised_of_suffixDepth .flat flat (hf.suffixDepth_eq_zero hbreak)] at hwhenFlat
  rw [hnone] at hwhenBroken ⊢
  rw [resolve]
  simp only [hpending]
  exact hwhenFlat.choice hwhenBroken (hpending.trans
    (pending_resolve_of_keepsLine flush indentWidth false broken hbroken pending).symm)

mutual

/-- **Resolving a document raises what it holds back**, if nothing that is held
back gets lost in it. -/
theorem resolve_raises (hflush : flush.PrintsHeld) (indentWidth : Nat) (state : GroupState)
    (beforeBreak : Bool) (doc : Doc) (h : doc.Lossless)
    (hstate : doc.willBreak = true → state ≠ .undecided) {pending : List Doc}
    (hp : AllPlain pending) :
    (resolve flush indentWidth state beforeBreak doc pending).Raises pending
      (doc.raised (state.modeIn .broken)) := by
  match doc, h with
  | text s, _ => exact ⟨hp, fun _ _ _ _ _ => ⟨[.text s], rfl, rfl, rfl⟩⟩
  | concat docs, .concat h => exact resolveAll_raises hflush indentWidth state docs h hstate hp
  | line kind, _ => exact resolveLine_raises hflush state kind beforeBreak hp
  | indent contents, .indent h =>
    exact (resolve_raises hflush indentWidth state false contents h hstate hp).nest indentWidth
  | group shouldBreak contents, .group _ h =>
    have hcontents := resolve_raises hflush indentWidth
      (innerState state (shouldBreak || contents.willBreak)) false contents h
      (fun hbreak => innerState_ne_undecided state (by rw [hbreak, Bool.or_true])) hp
    rw [modeIn_innerState] at hcontents
    exact Resolved.Follows.inGroup hcontents _
  | fill parts, .fill h =>
    cases state with
    | flat => exact resolveAll_raises hflush indentWidth .flat parts h hstate hp
    | broken | undecided => exact fillFromContent_raises hflush indentWidth parts h hp
  | ifBreak broken flat, .ifBreak hb hf keeps =>
    cases state with
    | flat => exact resolve_raises hflush indentWidth .flat false flat hf nofun hp
    | broken => exact resolve_raises hflush indentWidth .broken false broken hb nofun hp
    | undecided =>
      have hkeeps := keeps.resolve_left fun hbreak => hstate hbreak rfl
      have hbroken := (Bool.and_eq_true_iff.mp hkeeps).1
      exact ifBreak_raises indentWidth beforeBreak hb hf hkeeps
        (resolve_raises hflush indentWidth .flat false flat hf nofun hp)
        (resolve_raises hflush indentWidth .undecided false broken hb
          (by simp [willBreak_of_keepsLine broken hbroken]) hp)
  | conditional variants, .conditional h back =>
    cases state with
    | flat => exact resolveFirst_raises hflush indentWidth variants h hp
    | broken | undecided =>
      rw [resolve]
      split_ifs with hnone
      · obtain rfl := List.isEmpty_iff.mp hnone
        exact resolveVariants_raises hflush indentWidth variants h back
      · exact resolveLast_raises hflush indentWidth variants h hp
  | lineSuffix contents, .lineSuffix plain =>
    exact ⟨List.forall_mem_append.mpr ⟨hp, List.forall_mem_singleton.mpr plain⟩,
      fun _ _ _ _ _ => ⟨[.suffix contents], rfl, rfl, rfl⟩⟩
  | suffixBoundary, _ => exact resolveBoundary_raises hflush hp
termination_by structural doc

theorem resolveAll_raises (hflush : flush.PrintsHeld) (indentWidth : Nat) (state : GroupState)
    (docs : List Doc) (h : ∀ doc ∈ docs, doc.Lossless)
    (hstate : anyWillBreak docs = true → state ≠ .undecided) {pending : List Doc}
    (hp : AllPlain pending) :
    (resolveAll flush indentWidth state docs pending).Raises pending
      (allRaised (state.modeIn .broken) docs) := by
  match docs with
  | [] => exact ⟨hp, fun _ _ _ _ _ => ⟨[], rfl, rfl, rfl⟩⟩
  | doc :: docs =>
    obtain ⟨hdoc, hdocs⟩ := List.forall_mem_cons.mp h
    rw [anyWillBreak, Bool.or_eq_true, or_imp] at hstate
    have hhere :=
      resolve_raises hflush indentWidth state (nextIsBreak state docs) doc hdoc hstate.1 hp
    exact hhere.seq (resolveAll_raises hflush indentWidth state docs hdocs hstate.2 hhere.plain)
termination_by structural docs

theorem fillFromContent_raises (hflush : flush.PrintsHeld) (indentWidth : Nat) (parts : List Doc)
    (h : ∀ doc ∈ parts, doc.Lossless) {pending : List Doc} (hp : AllPlain pending) :
    (fillFromContent flush indentWidth parts pending).Raises pending (allRaised .broken parts) := by
  match parts with
  | [] => exact ⟨hp, fun _ _ _ _ _ => ⟨[], rfl, rfl, rfl⟩⟩
  | content :: parts =>
    obtain ⟨hcontent, hparts⟩ := List.forall_mem_cons.mp h
    have hhere := resolve_raises hflush indentWidth (innerState .undecided content.willBreak) false
      content hcontent (innerState_ne_undecided .undecided) hp
    rw [modeIn_innerState] at hhere
    exact Resolved.Raises.seq (Resolved.Follows.inGroup hhere _)
      (fillFromSeparator_raises hflush indentWidth parts hparts hhere.plain)
termination_by structural parts

theorem fillFromSeparator_raises (hflush : flush.PrintsHeld) (indentWidth : Nat) (parts : List Doc)
    (h : ∀ doc ∈ parts, doc.Lossless) {pending : List Doc} (hp : AllPlain pending) :
    (fillFromSeparator flush indentWidth parts pending).Raises pending
      (allRaised .broken parts) := by
  match parts with
  | [] => exact ⟨hp, fun _ _ _ _ _ => ⟨[], rfl, rfl, rfl⟩⟩
  | separator :: parts =>
    obtain ⟨hseparator, hparts⟩ := List.forall_mem_cons.mp h
    have hbroken {pending : List Doc} (hp : AllPlain pending) :=
      resolve_raises hflush indentWidth .broken false separator hseparator nofun hp
    have hhere : (resolveSeparator flush indentWidth (nextIsBreak .undecided parts) separator
        pending).Raises pending (separator.raised .broken) := by
      obtain ⟨rfl, heq⟩ | heq | ⟨rfl, rfl, heq⟩ | ⟨rfl, hnobreak, hnone, heq⟩ :=
        resolveSeparator_cases flush indentWidth (nextIsBreak .undecided parts)
          hseparator.suffixDepth_eq_zero pending
      · rw [heq]
        exact certainBreak_raises hflush _ hp
      · rw [heq]
        exact hbroken hp
      · rw [heq]
        exact softBreak_raises
      · have hdepth := hseparator.suffixDepth_eq_zero hnobreak
        have hattempt := resolve_raises hflush indentWidth .flat false separator hseparator nofun hp
        have hfallback := hbroken hp
        rw [raised_of_suffixDepth _ _ hdepth] at hattempt hfallback ⊢
        rw [heq]
        exact Resolved.Follows.firstFit hattempt hfallback (hnone .flat) (hnone .broken)
    rw [fillFromSeparator_cons]
    exact hhere.seq (fillFromContent_raises hflush indentWidth parts hparts hhere.plain)
termination_by structural parts

/-- With nothing pending, the variants of a choice raise **what the last one does**: an attempt
before it holds nothing back, and then neither does the last one. -/
theorem resolveVariants_raises (hflush : flush.PrintsHeld) (indentWidth : Nat) (variants : List Doc)
    (h : ∀ variant ∈ variants, variant.Lossless)
    (back : (∀ variant ∈ variants, variant.suffixDepth = 0) ∨
      ∀ variant ∈ variants.dropLast, variant.willBreak = true) :
    (resolveVariants flush indentWidth variants []).Raises [] (lastRaised variants) := by
  match variants with
  | [] => exact ⟨allPlain_nil, fun _ _ _ _ _ => ⟨[], rfl, rfl, rfl⟩⟩
  | variant :: others =>
    obtain ⟨hvariant, hothers⟩ := List.forall_mem_cons.mp h
    rw [resolveVariants, lastRaised]
    split_ifs with hlast hbound
    · exact resolve_raises hflush indentWidth .broken false variant hvariant nofun allPlain_nil
    · refine resolveVariants_raises hflush indentWidth others hothers ?_
      obtain hnone | hbound := back
      · exact .inl (List.forall_mem_cons.mp hnone).2
      · rw [List.dropLast_cons_of_ne_nil (by simpa using hlast)] at hbound
        exact .inr (List.forall_mem_cons.mp hbound).2
    · obtain hnone | hbound' := back
      · obtain ⟨hdepth, hdepths⟩ := List.forall_mem_cons.mp hnone
        have hfallback := resolveVariants_raises hflush indentWidth others hothers (.inl hdepths)
        have hmax : maxSuffixDepth others = 0 := (maxSuffixDepth_eq_zero_iff others).mpr hdepths
        rw [lastRaised_of_suffixDepth others hmax] at hfallback ⊢
        have hpending : (resolveVariants flush indentWidth others []).pending = [] :=
          (resolveVariants_yields {} flush indentWidth .broken others hmax).pending
        have hattempt := resolve_raises hflush indentWidth .flat false variant hvariant nofun
          allPlain_nil
        have hattempted := pending_resolve_eq_nil flush indentWidth .flat false hdepth
        rw [raised_of_suffixDepth _ _ hdepth] at hattempt
        simp only [hpending, hattempted]
        exact Resolved.Follows.firstFit hattempt hfallback hattempted hpending
      · rw [List.dropLast_cons_of_ne_nil (by simpa using hlast)] at hbound'
        exact absurd (hbound' variant List.mem_cons_self) hbound
termination_by structural variants

theorem resolveFirst_raises (hflush : flush.PrintsHeld) (indentWidth : Nat) (variants : List Doc)
    (h : ∀ variant ∈ variants, variant.Lossless) {pending : List Doc} (hp : AllPlain pending) :
    (resolveFirst flush indentWidth variants pending).Raises pending (firstRaised variants) := by
  match variants with
  | [] => exact ⟨hp, fun _ _ _ _ _ => ⟨[], rfl, rfl, rfl⟩⟩
  | variant :: others =>
    exact resolve_raises hflush indentWidth .flat false variant
      (h variant List.mem_cons_self) nofun hp
termination_by structural variants

theorem resolveLast_raises (hflush : flush.PrintsHeld) (indentWidth : Nat) (variants : List Doc)
    (h : ∀ variant ∈ variants, variant.Lossless) {pending : List Doc} (hp : AllPlain pending) :
    (resolveLast flush indentWidth variants pending).Raises pending (lastRaised variants) := by
  match variants with
  | [] => exact ⟨hp, fun _ _ _ _ _ => ⟨[], rfl, rfl, rfl⟩⟩
  | variant :: others =>
    obtain ⟨hvariant, hothers⟩ := List.forall_mem_cons.mp h
    rw [resolveLast, lastRaised]
    split_ifs
    · exact resolve_raises hflush indentWidth .broken false variant hvariant nofun hp
    · exact resolveLast_raises hflush indentWidth others hothers hp
termination_by structural variants

end

end Doc

end Reflow
