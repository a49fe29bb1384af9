import Reflow.Proofs.Doc.Depth
import Reflow.Proofs.Doc.Events
import Reflow.Proofs.Doc.Pending
import Mathlib.Algebra.Order.Group.Multiset

/-!
# Proofs/Doc/Conservation — no text is lost

The characters of a document that are not blank, its **ink**, are printed or pending at every step
of the resolver: what is held back moves to the pending documents, and a flush prints it from there.
A flush leaves what its documents hold back themselves for the next one, and the flush at the very
end is the last.  So the ink of the output is the ink of the document but for what is pending behind
the end (`Doc.exists_ink_typeset`), and that may be something where held back text holds back more
(`Doc.typeset_nested_drops`).
-/

namespace Reflow

/-! ## Ink -/

/-- The **ink** of a text: its characters that are not blank, in any order. -/
def Text.ink (cs : List Char) : Multiset Char :=
  Multiset.filter (fun c => Text.isBlank c = false) cs

namespace Text

theorem ink_append (xs ys : List Char) : ink (xs ++ ys) = ink xs + ink ys := by
  rw [ink, ← Multiset.coe_add, Multiset.filter_add, ink, ink]

/-- Blanks have **no ink**. -/
theorem ink_of_isBlankRun {run : List Char} (h : IsBlankRun run) : ink run = 0 :=
  Multiset.filter_eq_nil.mpr fun c hc => by simp [h c hc]

end Text

namespace Doc

mutual

/-- The ink of **all texts of a document**, those that are held back included. -/
def ink : Doc → Multiset Char
  | text s => Text.ink s.toList
  | line _ | suffixBoundary => 0
  | concat docs | fill docs | conditional docs => allInk docs
  | indent doc | group _ doc | lineSuffix doc => doc.ink
  | ifBreak broken flat => broken.ink + flat.ink

/-- The ink of documents in a row. -/
def allInk : List Doc → Multiset Char
  | [] => 0
  | doc :: docs => doc.ink + allInk docs

end

theorem allInk_append (docs docs' : List Doc) :
    allInk (docs ++ docs') = allInk docs + allInk docs' := by
  induction docs with
  | nil => exact (zero_add _).symm
  | cons doc docs ih => rw [List.cons_append, allInk, ih, allInk, add_assoc]

end Doc

/-! ## Layouts -/

/-- A layout that is **written with this ink** however it is set. -/
def Layout.HasInk (o : LayoutOptions) (layout : Layout) (ink : Multiset Char) : Prop :=
  ∀ mode pieces, layout.MayPrint mode pieces → Text.ink (pieces.flatMap (Piece.chars o)) = ink

namespace Layout.HasInk

variable {o : LayoutOptions} {a b : Layout} {m n : Multiset Char}

theorem nil : Layout.nil.HasInk o 0 := by
  intro mode pieces h
  cases h
  rfl

theorem text (s : String) : (Layout.text s).HasInk o (Text.ink s.toList) := by
  intro mode pieces h
  cases h
  rw [List.flatMap_singleton]
  rfl

theorem newline : Layout.newline.HasInk o 0 := by
  intro mode pieces h
  cases h with
  | newline mode indent =>
    rw [List.flatMap_singleton]
    exact Text.ink_of_isBlankRun (Piece.isBreak_chars_newline o indent).2

theorem blankLine : Layout.blankLine.HasInk o 0 := by
  intro mode pieces h
  cases h
  rw [List.flatMap_singleton]
  exact Text.ink_of_isBlankRun (Piece.isBreak_chars_blankLine o).2

theorem softBreak (n : Nat) : (Layout.softBreak n).HasInk o 0 := by
  intro mode pieces h
  cases h with
  | spaces =>
    rw [List.flatMap_singleton]
    refine Text.ink_of_isBlankRun fun c hc => ?_
    rw [List.eq_of_mem_replicate hc]
    rfl
  | softNewline n indent => exact newline .broken _ (.newline .broken indent)

theorem seq (ha : a.HasInk o m) (hb : b.HasInk o n) : (Layout.seq a b).HasInk o (m + n) := by
  intro mode pieces h
  cases h with
  | seq h₁ h₂ => rw [List.flatMap_append, Text.ink_append, ha _ _ h₁, hb _ _ h₂]

theorem nest (ha : a.HasInk o m) (columns : Nat) : (Layout.nest columns a).HasInk o m := by
  intro mode pieces h
  cases h with
  | nest h => exact ha _ _ h

theorem inGroup (ha : a.HasInk o m) (state : GroupState) : (Doc.inGroup state a).HasInk o m := by
  cases state with
  | flat | broken => exact ha
  | undecided =>
    intro mode pieces h
    cases h with
    | group inner h => exact ha inner _ h

/-- Either of the two may be set, so **both need the same ink**. -/
theorem firstFit (ha : a.HasInk o m) (hb : b.HasInk o m) : (Layout.firstFit a b).HasInk o m := by
  intro mode pieces h
  cases h with
  | attempt h => exact ha _ _ h
  | fallback h => exact hb _ _ h

end Layout.HasInk

/-! ## What comes of resolving -/

namespace Doc

/-- Documents without choices that hold back **less than `n` deep**. -/
def FreeBelow (n : Nat) (docs : List Doc) : Prop :=
  ∀ doc ∈ docs, doc.ChoiceFree ∧ doc.suffixDepth < n

theorem freeBelow_nil (n : Nat) : FreeBelow n [] := by simp [FreeBelow]

end Doc

/-- What comes of resolving **conserves ink**: with that of one document added, it is printed,
however the layout is set, or still pending. -/
structure Resolved.Conserves (o : LayoutOptions) (n : Nat) (r : Resolved) (pending : List Doc)
    (ink : Multiset Char) : Prop where
  ink : ∃ printed, r.layout.HasInk o printed ∧
    printed + Doc.allInk r.pending = ink + Doc.allInk pending
  below : Doc.FreeBelow n r.pending

namespace Resolved.Conserves

variable {o : LayoutOptions} {n : Nat} {r r' : Resolved} {pending : List Doc} {layout : Layout}
  {x y : Multiset Char}

/-- What flushes nothing and **holds nothing back**. -/
theorem of_hasInk (h : layout.HasInk o x) (hp : Doc.FreeBelow n pending) :
    Conserves o n ⟨layout, pending⟩ pending x :=
  ⟨⟨x, h, rfl⟩, hp⟩

/-- With nothing pending before and after, it is **all printed**. -/
theorem hasInk (h : r.Conserves o n [] x) (hnone : r.pending = []) : r.layout.HasInk o x := by
  obtain ⟨printed, hprinted, heq⟩ := h.ink
  rw [hnone] at heq
  rwa [add_right_cancel heq] at hprinted

/-- What the first leaves pending is **where the second starts from**. -/
theorem seq (h : r.Conserves o n pending x) (h' : r'.Conserves o n r.pending y) :
    Conserves o n ⟨.seq r.layout r'.layout, r'.pending⟩ pending (x + y) := by
  obtain ⟨printed, hprinted, heq⟩ := h.ink
  obtain ⟨printed', hprinted', heq'⟩ := h'.ink
  refine ⟨⟨printed + printed', hprinted.seq hprinted', ?_⟩, h'.below⟩
  calc printed + printed' + Doc.allInk r'.pending
      = printed + Doc.allInk r.pending + y := by rw [add_assoc, heq', add_comm y, add_assoc]
    _ = x + y + Doc.allInk pending := by rw [heq, add_right_comm]

theorem nest (h : r.Conserves o n pending x) (columns : Nat) :
    Conserves o n ⟨.nest columns r.layout, r.pending⟩ pending x := by
  obtain ⟨printed, hprinted, heq⟩ := h.ink
  exact ⟨⟨printed, hprinted.nest columns, heq⟩, h.below⟩

theorem inGroup (h : r.Conserves o n pending x) (state : GroupState) :
    Conserves o n ⟨Doc.inGroup state r.layout, r.pending⟩ pending x := by
  obtain ⟨printed, hprinted, heq⟩ := h.ink
  exact ⟨⟨printed, hprinted.inGroup state, heq⟩, h.below⟩

end Resolved.Conserves

namespace Doc

/-- A flush that **prints what is pending**, or leaves it pending. -/
def Flush.Conserves (o : LayoutOptions) (n : Nat) (flush : Flush) : Prop :=
  ∀ docs, FreeBelow n docs → (flush docs).Conserves o n [] (allInk docs)

variable {o : LayoutOptions} {n : Nat} {flush : Flush} {pending : List Doc}

/-! ## Lines -/

theorem certainBreak_conserves (hflush : flush.Conserves o n) (beforeBreak : Bool)
    (hp : FreeBelow n pending) :
    (certainBreak flush beforeBreak pending).Conserves o n pending 0 := by
  have hmark : (if beforeBreak then Layout.blankLine else .newline).HasInk o 0 := by
    split_ifs
    · exact .blankLine
    · exact .newline
  rw [certainBreak]
  cases hnone : pending.isEmpty with
  | true =>
    obtain rfl := List.isEmpty_iff.mp hnone
    exact .of_hasInk hmark (freeBelow_nil n)
  | false =>
    have hflushed := hflush pending hp
    obtain ⟨printed, hprinted, heq⟩ := hflushed.ink
    rw [if_neg Bool.false_ne_true]
    refine ⟨⟨printed + 0, hprinted.seq hmark, ?_⟩, hflushed.below⟩
    rw [add_zero, zero_add, heq]
    exact add_zero _

/-- A line has no ink, and what it flushes is **printed or pending**. -/
theorem resolveLine_conserves (hflush : flush.Conserves o n) (state : GroupState) (kind : LineKind)
    (beforeBreak : Bool) (hp : FreeBelow n pending) :
    (resolveLine flush state kind beforeBreak pending).Conserves o n pending 0 := by
  have hbreak := certainBreak_conserves hflush beforeBreak hp
  rw [resolveLine.eq_def]
  split
  · exact hbreak
  · exact hbreak
  · exact .of_hasInk (.text " ") hp
  · exact .of_hasInk .nil hp
  · exact .of_hasInk (.softBreak 1) hp
  · exact .of_hasInk (.softBreak 0) hp

theorem resolveBoundary_conserves (hflush : flush.Conserves o n) (hp : FreeBelow n pending) :
    (resolveBoundary flush pending).Conserves o n pending 0 := by
  rw [resolveBoundary]
  cases hnone : pending.isEmpty with
  | true =>
    obtain rfl := List.isEmpty_iff.mp hnone
    exact .of_hasInk .nil (freeBelow_nil n)
  | false => exact certainBreak_conserves hflush false hp

/-! ## Documents

By recursion on the document, one statement for each function of the resolver. -/

mutual

/-- **Resolving a document** conserves its ink. -/
theorem resolve_conserves (hflush : flush.Conserves o n) (indentWidth : Nat) (state : GroupState)
    (beforeBreak : Bool) (doc : Doc) (h : doc.ChoiceFree) (hdepth : doc.suffixDepth ≤ n)
    {pending : List Doc} (hp : FreeBelow n pending) :
    (resolve flush indentWidth state beforeBreak doc pending).Conserves o n pending doc.ink := by
  match doc, h with
  | text s, _ => exact .of_hasInk (.text s) hp
  | concat docs, .concat h => exact resolveAll_conserves hflush indentWidth state docs h hdepth hp
  | line kind, _ => exact resolveLine_conserves hflush state kind beforeBreak hp
  | indent contents, .indent h =>
    exact (resolve_conserves hflush indentWidth state false contents h hdepth hp).nest indentWidth
  | group shouldBreak contents, .group _ h =>
    exact (resolve_conserves hflush indentWidth _ false contents h hdepth hp).inGroup _
  | fill parts, .fill h =>
    cases state with
    | flat => exact resolveAll_conserves hflush indentWidth .flat parts h hdepth hp
    | broken | undecided => exact fillFromContent_conserves hflush indentWidth parts h hdepth hp
  | lineSuffix contents, .lineSuffix h =>
    refine ⟨⟨0, .nil, ?_⟩,
      List.forall_mem_append.mpr ⟨hp, List.forall_mem_singleton.mpr ⟨h, hdepth⟩⟩⟩
    rw [zero_add, resolve, allInk_append, add_comm, ink, allInk, allInk, add_zero]
  | suffixBoundary, _ => exact resolveBoundary_conserves hflush hp
termination_by structural doc

theorem resolveAll_conserves (hflush : flush.Conserves o n) (indentWidth : Nat) (state : GroupState)
    (docs : List Doc) (h : ∀ doc ∈ docs, doc.ChoiceFree) (hdepth : maxSuffixDepth docs ≤ n)
    {pending : List Doc} (hp : FreeBelow n pending) :
    (resolveAll flush indentWidth state docs pending).Conserves o n pending (allInk docs) := by
  match docs with
  | [] => exact .of_hasInk .nil hp
  | doc :: docs =>
    obtain ⟨hdoc, hdocs⟩ := List.forall_mem_cons.mp h
    obtain ⟨hdepth, hdepths⟩ := Nat.max_le.mp hdepth
    have hhere :=
      resolve_conserves hflush indentWidth state (nextIsBreak state docs) doc hdoc hdepth hp
    exact hhere.seq (resolveAll_conserves hflush indentWidth state docs hdocs hdepths hhere.below)
termination_by structural docs

theorem fillFromContent_conserves (hflush : flush.Conserves o n) (indentWidth : Nat)
    (parts : List Doc) (h : ∀ doc ∈ parts, doc.ChoiceFree) (hdepth : maxSuffixDepth parts ≤ n)
    {pending : List Doc} (hp : FreeBelow n pending) :
    (fillFromContent flush indentWidth parts pending).Conserves o n pending (allInk parts) := by
  match parts with
  | [] => exact .of_hasInk .nil hp
  | content :: parts =>
    obtain ⟨hcontent, hparts⟩ := List.forall_mem_cons.mp h
    obtain ⟨hdepth, hdepths⟩ := Nat.max_le.mp hdepth
    have hhere :=
      (resolve_conserves hflush indentWidth (innerState .undecided content.willBreak) false content
        hcontent hdepth hp).inGroup (innerState .undecided content.willBreak)
    exact hhere.seq
      (fillFromSeparator_conserves hflush indentWidth parts hparts hdepths hhere.below)
termination_by structural parts

theorem fillFromSeparator_conserves (hflush : flush.Conserves o n) (indentWidth : Nat)
    (parts : List Doc) (h : ∀ doc ∈ parts, doc.ChoiceFree) (hdepth : maxSuffixDepth parts ≤ n)
    {pending : List Doc} (hp : FreeBelow n pending) :
    (fillFromSeparator flush indentWidth parts pending).Conserves o n pending (allInk parts) := by
  match parts with
  | [] => exact .of_hasInk .nil hp
  | separator :: parts =>
    obtain ⟨hseparator, hparts⟩ := List.forall_mem_cons.mp h
    obtain ⟨hdepth, hdepths⟩ := Nat.max_le.mp hdepth
    have hany (state : GroupState) {pending : List Doc} (hp : FreeBelow n pending) :=
      resolve_conserves hflush indentWidth state false separator hseparator hdepth hp
    have hhere : (resolveSeparator flush indentWidth (nextIsBreak .undecided parts) separator
        pending).Conserves o n pending separator.ink := by
      obtain ⟨rfl, heq⟩ | heq | ⟨rfl, rfl, heq⟩ | ⟨rfl, -, hnone, heq⟩ :=
        resolveSeparator_cases flush indentWidth (nextIsBreak .undecided parts)
          hseparator.suffixDepth_eq_zero pending
      · rw [heq]
        exact certainBreak_conserves hflush _ hp
      · rw [heq]
        exact hany .broken hp
      · rw [heq]
        exact .of_hasInk ((Layout.HasInk.softBreak 1).inGroup .undecided) hp
      · -- only one of the attempts is printed, so neither may leave ink pending
        have hattempt := (hany .flat hp).hasInk (hnone .flat)
        have hfallback := (hany .broken hp).hasInk (hnone .broken)
        rw [heq]
        exact .of_hasInk (hattempt.firstFit hfallback) hp
    exact hhere.seq (fillFromContent_conserves hflush indentWidth parts hparts hdepths hhere.below)
termination_by structural parts

end

/-! ## Flushing -/

theorem resolveEach_conserves (hflush : flush.Conserves o n) (indentWidth : Nat) {docs : List Doc}
    (h : FreeBelow (n + 1) docs) (hp : FreeBelow n pending) :
    (resolveEach flush indentWidth docs pending).Conserves o n pending (allInk docs) := by
  induction docs generalizing pending with
  | nil => exact .of_hasInk .nil hp
  | cons doc docs ih =>
    obtain ⟨⟨hdoc, hdepth⟩, hdocs⟩ := List.forall_mem_cons.mp h
    have hhere :=
      resolve_conserves hflush indentWidth .flat false doc hdoc (Nat.le_of_lt_succ hdepth) hp
    exact hhere.seq (ih hdocs hhere.below)

/-- **Every flush of the resolver** that goes deep enough conserves ink. -/
theorem flushAt_conserves (o : LayoutOptions) (indentWidth n : Nat) :
    Flush.Conserves o n (flushAt indentWidth n) := by
  induction n with
  | zero =>
    intro docs h
    obtain rfl := eq_nil_of_allBelow_zero fun doc hdoc => (h doc hdoc).2
    exact .of_hasInk .nil (freeBelow_nil 0)
  | succ n ih =>
    intro docs h
    have hflushed := resolveEach_conserves ih indentWidth h (freeBelow_nil n)
    exact ⟨hflushed.ink, fun doc hdoc => ((hflushed.below doc hdoc).imp_right Nat.lt_succ_of_lt)⟩

/-! ## At every width -/

/-- What a document that stands alone **never prints**: what is pending after
the flush at its end. -/
def dropped (indentWidth : Nat) (doc : Doc) : List Doc :=
  (flushAt indentWidth doc.suffixDepth (doc.leftPending indentWidth)).pending

/-- Nothing is dropped if what is left for the end **holds nothing back**. -/
theorem dropped_eq_nil {indentWidth : Nat} {doc : Doc}
    (h : AllPlain (doc.leftPending indentWidth)) :
    doc.dropped indentWidth = [] :=
  flushAt_clears indentWidth _ _ h

/-- The layout of a document without choices has **its ink but for what is dropped**. -/
theorem exists_hasInk_layout (o : LayoutOptions) (indentWidth : Nat) {doc : Doc}
    (h : doc.ChoiceFree) :
    ∃ printed, (doc.layout indentWidth).HasInk o printed ∧
      printed + allInk (doc.dropped indentWidth) = doc.ink := by
  have hflush := flushAt_conserves o indentWidth doc.suffixDepth
  have hdoc : (doc.alone indentWidth).Conserves o doc.suffixDepth [] doc.ink :=
    resolve_conserves hflush indentWidth .broken false doc h le_rfl (freeBelow_nil _)
  have hlast := hflush _ hdoc.below
  rw [layout_eq_finish indentWidth le_rfl, Flush.finish]
  split_ifs with hnone
  · have hnil : doc.leftPending indentWidth = [] := List.isEmpty_iff.mp hnone
    have hplain : AllPlain (doc.leftPending indentWidth) := by
      rw [hnil]
      exact allPlain_nil
    exact ⟨doc.ink, hdoc.hasInk hnil, by rw [dropped_eq_nil hplain, allInk, add_zero]⟩
  · obtain ⟨printed, hprinted, heq⟩ := hdoc.ink
    obtain ⟨printed', hprinted', heq'⟩ := hlast.ink
    refine ⟨printed + printed', hprinted.seq hprinted', ?_⟩
    calc printed + printed' + allInk (doc.dropped indentWidth)
        = printed + allInk (doc.leftPending indentWidth) := by
          rw [add_assoc]
          exact congrArg (printed + ·) (heq'.trans (add_zero _))
      _ = doc.ink := heq.trans (add_zero _)

/-- **Held back text is only lost at the very end.**  The ink of what a document without choices is
typeset as and the ink of what is dropped are the ink of the document, however deep text is held
back.  Nothing is lost if what is left for the end holds nothing back itself. -/
theorem exists_ink_typeset (o : LayoutOptions) (hindent : 0 < o.indentWidth) {doc : Doc}
    (h : doc.ChoiceFree) :
    ∃ output, doc.typeset o = .ok output ∧
      Text.ink output.toList + allInk (doc.dropped o.indentWidth) = doc.ink ∧
      (AllPlain (doc.leftPending o.indentWidth) → Text.ink output.toList = doc.ink) := by
  obtain ⟨printed, hprinted, heq⟩ := exists_hasInk_layout o o.indentWidth h
  have hink : Text.ink (Piece.write o (doc.pieces o)).toList = printed := by
    rw [Piece.toList_write]
    exact hprinted _ _ (Layout.pieces_mayPrint o.printWidth _)
  rw [← hink] at heq
  refine ⟨Piece.write o (doc.pieces o), by rw [typeset, if_neg hindent.ne'], heq, fun hplain => ?_⟩
  rwa [dropped_eq_nil hplain, allInk, add_zero] at heq

/-- The inner comment waits for the break after the one that prints the outer comment. -/
theorem exists_ink_typeset_twoLines :
    let doc := concat [text "a", lineSuffix (concat [text " // b", lineSuffix (text " // c")]),
      line .hard, text "d", line .hard, text "e"]
    0 < ({} : LayoutOptions).indentWidth ∧ doc.ChoiceFree ∧
      AllPlain (doc.leftPending ({} : LayoutOptions).indentWidth) ∧
      ∃ output, doc.typeset {} = .ok output ∧ Text.ink output.toList = doc.ink := by
  intro doc
  have hcomment : (concat [text " // b", lineSuffix (text " // c")]).ChoiceFree := by
    refine .concat ?_
    rintro _ (_ | ⟨_, _ | ⟨_, ⟨⟩⟩⟩)
    exacts [.text _, .lineSuffix (.text _)]
  have hdoc : doc.ChoiceFree := by
    refine .concat ?_
    rintro _ (_ | ⟨_, _ | ⟨_, _ | ⟨_, _ | ⟨_, _ | ⟨_, _ | ⟨_, ⟨⟩⟩⟩⟩⟩⟩⟩)
    exacts [.text _, .lineSuffix hcomment, .line _, .text _, .line _, .text _]
  have hplain : AllPlain (doc.leftPending ({} : LayoutOptions).indentWidth) := allPlain_nil
  obtain ⟨output, htypeset, -, hink⟩ := exists_ink_typeset {} (by decide) hdoc
  exact ⟨by decide, hdoc, hplain, output, htypeset, hink hplain⟩

/-- What is held back inside the last suffix is **never printed**. -/
theorem typeset_nested_drops :
    let doc := lineSuffix (concat [text "a", lineSuffix (text "b")])
    doc.typeset {} = .ok "a" ∧ Text.ink "a".toList ≠ doc.ink := by
  decide

end Doc

end Reflow
