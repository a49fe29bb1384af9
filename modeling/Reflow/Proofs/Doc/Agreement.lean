import Reflow.Proofs.Doc.Texts

/-!
# Proofs/Doc/Agreement — the width never changes the texts

A document whose choices agree is resolved to a layout that **prints the same texts at every width**
(`Doc.exists_hasTexts_layout`).  What is held back is flushed by the resolver, before any width is
known, so it is woven into the others at places that do not depend on it either.
-/

namespace Reflow

open Text (kept Woven Meets SpacedOut unspaced)

/-! ## Layouts -/

/-- A layout that prints **these texts however it is set**. -/
def Layout.HasTexts (layout : Layout) (ts : List String) : Prop :=
  ∀ mode pieces, layout.MayPrint mode pieces → Piece.texts pieces = ts

namespace Layout.HasTexts

variable {a b : Layout} {xs ys : List String}

theorem nil : Layout.nil.HasTexts [] := by
  intro mode pieces h
  cases h
  rfl

theorem text (s : String) : (Layout.text s).HasTexts (kept s) := by
  intro mode pieces h
  cases h
  exact List.append_nil _

theorem newline : Layout.newline.HasTexts [] := by
  intro mode pieces h
  cases h
  rfl

theorem blankLine : Layout.blankLine.HasTexts [] := by
  intro mode pieces h
  cases h
  rfl

theorem softBreak (n : Nat) : (Layout.softBreak n).HasTexts [] := by
  intro mode pieces h
  cases h with
  | spaces | softNewline => rfl

theorem seq (ha : a.HasTexts xs) (hb : b.HasTexts ys) : (Layout.seq a b).HasTexts (xs ++ ys) := by
  intro mode pieces h
  cases h with
  | seq h₁ h₂ => rw [Piece.texts_append, ha _ _ h₁, hb _ _ h₂]

theorem nest (ha : a.HasTexts xs) (columns : Nat) : (Layout.nest columns a).HasTexts xs := by
  intro mode pieces h
  cases h with
  | nest h => exact ha _ _ h

theorem group (ha : a.HasTexts xs) : (Layout.group a).HasTexts xs := by
  intro mode pieces h
  cases h with
  | group inner h => exact ha inner _ h

theorem choice (ha : a.HasTexts xs) (hb : b.HasTexts xs) : (Layout.choice a b).HasTexts xs := by
  intro mode pieces h
  cases h with
  | flat h => exact ha _ _ h
  | broken h => exact hb _ _ h

/-- Either of the two may be set, so **both need the same texts**. -/
theorem firstFit (ha : a.HasTexts xs) (hb : b.HasTexts xs) :
    (Layout.firstFit a b).HasTexts xs := by
  intro mode pieces h
  cases h with
  | attempt h => exact ha _ _ h
  | fallback h => exact hb _ _ h

end Layout.HasTexts

/-! ## What comes of resolving -/

/-- What comes of resolving **weaves texts**: the layout prints them with others woven in, however
it is set, and what is pending may be printed anywhere.  If nothing else is around, nothing is woven
in and nothing is left pending. -/
structure Resolved.Weaves (r : Resolved) (alone : Prop) (xs : List String) : Prop where
  texts : ∃ ts, r.layout.HasTexts ts ∧ Woven xs ts ∧ (alone → ts = xs)
  pending : ∀ doc ∈ r.pending, doc.IsInert
  nonePending : alone → r.pending = []

namespace Resolved.Weaves

variable {r r' : Resolved} {alone alone' alone'' : Prop} {xs ys : List String} {layout : Layout}
  {pending : List Doc}

theorem imp (h : r.Weaves alone xs) (halone : alone' → alone) : r.Weaves alone' xs := by
  obtain ⟨ts, hts, hwoven, hxs⟩ := h.texts
  exact ⟨⟨ts, hts, hwoven, fun ha => hxs (halone ha)⟩, h.pending,
    fun ha => h.nonePending (halone ha)⟩

/-- What has texts of its own **weaves these**. -/
theorem of_hasTexts (h : layout.HasTexts xs) (hpending : ∀ doc ∈ pending, doc.IsInert)
    (hnone : alone → pending = []) : Weaves ⟨layout, pending⟩ alone xs :=
  ⟨⟨xs, h, .refl xs, fun _ => rfl⟩, hpending, hnone⟩

/-- So does what **flushes nothing**. -/
theorem of_pending_eq (h : r.pending = pending ∧ r.layout.HasTexts xs)
    (hpending : ∀ doc ∈ pending, doc.IsInert) : r.Weaves (pending = []) xs := by
  obtain ⟨rfl, htexts⟩ := h
  exact of_hasTexts htexts hpending id

/-- Alone, a layout has **the texts themselves**. -/
theorem hasTexts (h : r.Weaves alone xs) (ha : alone) : r.layout.HasTexts xs := by
  obtain ⟨ts, hts, -, hxs⟩ := h.texts
  rwa [hxs ha] at hts

/-- One result after the other; the second sees **what the first leaves pending**. -/
theorem seq (h : r.Weaves alone xs) (h' : r'.Weaves alone' ys) (halone : alone'' → alone)
    (halone' : alone'' → r.pending = [] → alone') :
    Weaves ⟨.seq r.layout r'.layout, r'.pending⟩ alone'' (xs ++ ys) := by
  obtain ⟨ts, hts, hwoven, hxs⟩ := h.texts
  obtain ⟨us, hus, hwoven', hys⟩ := h'.texts
  have hlater (ha : alone'') : alone' := halone' ha (h.nonePending (halone ha))
  refine ⟨⟨ts ++ us, hts.seq hus, hwoven.append hwoven', fun ha => ?_⟩, h'.pending,
    fun ha => h'.nonePending (hlater ha)⟩
  rw [hxs (halone ha), hys (hlater ha)]

theorem nest (h : r.Weaves alone xs) (columns : Nat) :
    Weaves ⟨.nest columns r.layout, r.pending⟩ alone xs := by
  obtain ⟨ts, hts, hwoven, hxs⟩ := h.texts
  exact ⟨⟨ts, hts.nest columns, hwoven, hxs⟩, h.pending, h.nonePending⟩

/-- A group prints what is in it, flat or broken. -/
theorem inGroup (h : r.Weaves alone xs) (state : GroupState) :
    Weaves ⟨Doc.inGroup state r.layout, r.pending⟩ alone xs := by
  cases state with
  | flat | broken => exact h
  | undecided =>
    obtain ⟨ts, hts, hwoven, hxs⟩ := h.texts
    exact ⟨⟨ts, hts.group, hwoven, hxs⟩, h.pending, h.nonePending⟩

/-- An attempt and its fallback print the same texts if **nothing is woven in**. -/
theorem firstFit (h : r.Weaves alone xs) (ha : alone) (h' : r'.Weaves alone' xs) (ha' : alone')
    (hnil : pending = []) : Weaves ⟨.firstFit r.layout r'.layout, pending⟩ alone'' xs :=
  .of_hasTexts ((h.hasTexts ha).firstFit (h'.hasTexts ha')) (by simp [hnil]) fun _ => hnil

end Resolved.Weaves

namespace Doc

/-! ## Lines -/

/-- A flush that **prints what is pending** and nothing else. -/
def Flush.Settles (flush : Flush) : Prop :=
  ∀ pending, (∀ doc ∈ pending, doc.IsInert) → (flush pending).Weaves False []

variable {flush : Flush} {pending : List Doc}

theorem certainBreak_weaves (hflush : Flush.Settles flush) (beforeBreak : Bool)
    (hp : ∀ doc ∈ pending, doc.IsInert) :
    (certainBreak flush beforeBreak pending).Weaves (pending = []) [] := by
  have hmark : (if beforeBreak then Layout.blankLine else .newline).HasTexts [] := by
    split_ifs
    · exact .blankLine
    · exact .newline
  rw [certainBreak]
  by_cases hnone : pending.isEmpty = true
  · rw [if_pos hnone]
    exact .of_hasTexts hmark (by simp) fun _ => rfl
  · rw [if_neg hnone]
    have hflushed := hflush pending hp
    have hne : pending ≠ [] := by simpa using hnone
    obtain ⟨ts, hts, hwoven, -⟩ := hflushed.texts
    refine ⟨⟨ts, ?_, hwoven, fun hnil => absurd hnil hne⟩, hflushed.pending,
      fun hnil => absurd hnil hne⟩
    have hall := hts.seq hmark
    rwa [List.append_nil] at hall

/-- A line that need not break **flushes nothing**. -/
theorem resolveLine_soft (flush : Flush) {state : GroupState} (hstate : state ≠ .broken)
    {kind : LineKind} (hkind : kind ≠ .hard) (beforeBreak : Bool) (pending : List Doc) :
    (resolveLine flush state kind beforeBreak pending).pending = pending ∧
      (resolveLine flush state kind beforeBreak pending).layout.HasTexts [] := by
  rw [resolveLine.eq_def]
  split
  · exact absurd rfl hkind
  · exact absurd rfl hstate
  · exact ⟨rfl, .text " "⟩
  · exact ⟨rfl, .nil⟩
  · exact ⟨rfl, .softBreak 1⟩
  · exact ⟨rfl, .softBreak 0⟩

/-- A line has no text of its own, and what it flushes is **inert**. -/
theorem resolveLine_weaves (hflush : Flush.Settles flush) (state : GroupState) (kind : LineKind)
    (beforeBreak : Bool) (hp : ∀ doc ∈ pending, doc.IsInert) :
    (resolveLine flush state kind beforeBreak pending).Weaves (pending = []) [] := by
  have hbreak := certainBreak_weaves hflush beforeBreak hp
  by_cases hstate : state = .broken
  · subst hstate
    cases kind <;> exact hbreak
  by_cases hkind : kind = .hard
  · subst hkind
    cases state <;> exact hbreak
  exact .of_pending_eq (resolveLine_soft flush hstate hkind beforeBreak pending) hp

theorem resolveBoundary_weaves (hflush : Flush.Settles flush)
    (hp : ∀ doc ∈ pending, doc.IsInert) :
    (resolveBoundary flush pending).Weaves (pending = []) [] := by
  rw [resolveBoundary]
  split_ifs
  · exact .of_hasTexts .nil (by simp) fun _ => rfl
  · exact certainBreak_weaves hflush false hp

/-! ## Whitespace -/

mutual

/-- Whitespace in a group that need not break prints no text, and **flushes nothing**. -/
theorem resolve_spacing (flush : Flush) (indentWidth : Nat) {state : GroupState}
    (hstate : state ≠ .broken) (beforeBreak : Bool) (doc : Doc) (h : doc.IsSpacing)
    (pending : List Doc) :
    (resolve flush indentWidth state beforeBreak doc pending).pending = pending ∧
      (resolve flush indentWidth state beforeBreak doc pending).layout.HasTexts [] := by
  match doc, h with
  | text s, .text h =>
    have htext := Layout.HasTexts.text s
    rw [kept, if_pos h] at htext
    exact ⟨rfl, htext⟩
  | line kind, .line h => exact resolveLine_soft flush hstate h beforeBreak pending
  | concat docs, .concat h => exact resolveAll_spacing flush indentWidth hstate docs h pending

theorem resolveAll_spacing (flush : Flush) (indentWidth : Nat) {state : GroupState}
    (hstate : state ≠ .broken) (docs : List Doc) (h : ∀ doc ∈ docs, doc.IsSpacing)
    (pending : List Doc) :
    (resolveAll flush indentWidth state docs pending).pending = pending ∧
      (resolveAll flush indentWidth state docs pending).layout.HasTexts [] := by
  match docs with
  | [] => exact ⟨rfl, .nil⟩
  | doc :: docs =>
    obtain ⟨hdoc, hdocs⟩ := List.forall_mem_cons.mp h
    obtain ⟨hpending, htexts⟩ :=
      resolve_spacing flush indentWidth hstate (nextIsBreak state docs) doc hdoc pending
    obtain ⟨hpending', htexts'⟩ := resolveAll_spacing flush indentWidth hstate docs hdocs pending
    simp only [resolveAll, hpending]
    exact ⟨hpending', htexts.seq htexts'⟩

end

/-! ## Parts of a document -/

/-- In a group that is broken if it is bound to be, everything is **broken or
holds nothing back**. -/
theorem innerState_cases {doc : Doc} (h : doc.Agrees) {state : GroupState} (shouldBreak : Bool)
    (hstate : state = .flat → doc.suffixDepth = 0) :
    innerState state (shouldBreak || doc.willBreak) = .broken ∨ doc.suffixDepth = 0 := by
  by_cases hbreak : doc.willBreak = true
  · cases state with
    | flat => exact .inr (hstate rfl)
    | broken | undecided =>
      left
      rw [hbreak, Bool.or_true]
      rfl
  · exact .inr (h.suffixDepth_eq_zero (Bool.eq_false_iff.mpr hbreak))

theorem willBreak_of_separatorKind {separator : Doc} (h : separator.separatorKind = .other) :
    separator.willBreak = false := by
  unfold separatorKind at h
  split at h
  · cases h
  · cases h
  · split_ifs at h with hbreak
    exact Bool.eq_false_iff.mpr hbreak

/-- That **nothing else is around**: nothing is pending, and nothing is held back. -/
abbrev Alone (pending : List Doc) (depth : Nat) : Prop := pending = [] ∧ depth = 0

/-- A document **in front of others**, which see what it leaves pending. -/
theorem weaves_cons {here : Resolved} {next : List Doc → Resolved} {doc : Doc} {docs : List Doc}
    (hhere : here.Weaves (Alone pending doc.suffixDepth) (doc.texts false))
    (hnext : ∀ pending, (∀ doc ∈ pending, doc.IsInert) →
      (next pending).Weaves (Alone pending (maxSuffixDepth docs)) (allTexts false docs)) :
    Resolved.Weaves ⟨.seq here.layout (next here.pending).layout, (next here.pending).pending⟩
      (Alone pending (maxSuffixDepth (doc :: docs))) (allTexts false (doc :: docs)) := by
  refine hhere.seq (hnext _ hhere.pending) ?_ ?_
  · intro ⟨hnil, hdepth⟩
    exact ⟨hnil, (Nat.max_eq_zero_iff.mp hdepth).1⟩
  · intro ⟨_, hdepth⟩ hnil
    exact ⟨hnil, (Nat.max_eq_zero_iff.mp hdepth).2⟩

/-- A **separator** is in front of the contents, however it is resolved. -/
theorem exists_fillFromSeparator_eq (hflush : Flush.Settles flush) (indentWidth : Nat)
    {separator : Doc} (h : separator.Agrees) (parts : List Doc) (hp : ∀ doc ∈ pending, doc.IsInert)
    (hbroken : (resolve flush indentWidth .broken false separator pending).Weaves
      (Alone pending separator.suffixDepth) (separator.texts false))
    (hflat : separator.suffixDepth = 0 →
      (resolve flush indentWidth .flat false separator pending).Weaves
        (Alone pending separator.suffixDepth) (separator.texts false)) :
    ∃ here : Resolved, here.Weaves (Alone pending separator.suffixDepth) (separator.texts false) ∧
      fillFromSeparator flush indentWidth (separator :: parts) pending =
        ⟨.seq here.layout (fillFromContent flush indentWidth parts here.pending).layout,
          (fillFromContent flush indentWidth parts here.pending).pending⟩ := by
  rw [fillFromSeparator.eq_def]
  cases hkind : separator.separatorKind with
  | hardLine =>
    obtain rfl := eq_hard_of_separatorKind hkind
    refine ⟨_, (certainBreak_weaves hflush (nextIsBreak .undecided parts) hp).imp And.left, ?_⟩
    simp only [hkind]
  | breaking => exact ⟨_, hbroken, by simp only [hkind]⟩
  | space =>
    obtain rfl := eq_orSpace_of_separatorKind hkind
    rcases pending with _ | ⟨doc, pending⟩
    · exact ⟨_, .of_hasTexts (.group (.softBreak 1)) hp And.left, by simp only [hkind]⟩
    · exact ⟨_, hbroken, by simp only [hkind]⟩
  | other =>
    rcases pending with _ | ⟨doc, pending⟩
    · have hzero : separator.suffixDepth = 0 :=
        h.suffixDepth_eq_zero (willBreak_of_separatorKind hkind)
      have hnone := hbroken.nonePending ⟨rfl, hzero⟩
      refine ⟨_, (hflat hzero).firstFit ⟨rfl, hzero⟩ hbroken ⟨rfl, hzero⟩ hnone, ?_⟩
      simp only [hkind, (hflat hzero).nonePending ⟨rfl, hzero⟩, hnone]
    · exact ⟨_, hbroken, by simp only [hkind]⟩

/-! ## Documents

By recursion on the document, one statement for each function of the resolver. -/

mutual

/-- **Resolving a document** whose choices agree weaves what is held back into its texts. -/
theorem resolve_weaves (hflush : Flush.Settles flush) (indentWidth : Nat) (state : GroupState)
    (beforeBreak : Bool) (doc : Doc) (h : doc.Agrees)
    (hstate : state = .broken ∨ doc.suffixDepth = 0) (pending : List Doc)
    (hp : ∀ doc ∈ pending, doc.IsInert) :
    (resolve flush indentWidth state beforeBreak doc pending).Weaves
      (Alone pending doc.suffixDepth) (doc.texts false) := by
  match doc, h with
  | text s, _ => exact .of_hasTexts (.text s) hp And.left
  | concat docs, .concat h =>
    exact resolveAll_weaves hflush indentWidth state docs h hstate pending hp
  | line kind, _ => exact (resolveLine_weaves hflush state kind beforeBreak hp).imp And.left
  | indent contents, .indent h =>
    exact (resolve_weaves hflush indentWidth state false contents h hstate pending hp).nest
      indentWidth
  | group shouldBreak contents, .group _ h =>
    have hinner := innerState_cases h shouldBreak fun hflat =>
      hstate.resolve_left fun hbroken => by cases hflat.symm.trans hbroken
    exact (resolve_weaves hflush indentWidth _ false contents h hinner pending hp).inGroup _
  | fill parts, .fill h =>
    cases state with
    | flat =>
      exact resolveAll_weaves hflush indentWidth .flat parts h
        (hstate.imp_left (by simp)) pending hp
    | broken | undecided => exact fillFromContent_weaves hflush indentWidth parts h pending hp
  | ifBreak broken flat, .ifBreak hb hf =>
    rw [show (ifBreak broken flat).texts false = [] from hf.texts_eq_nil]
    have hblank {state : GroupState} (hstate : state ≠ .broken) {doc : Doc} (h : doc.IsSpacing) :=
      resolve_spacing flush indentWidth hstate false doc h pending
    have hflat := @hblank .flat (by simp) _ hf
    cases state with
    | flat => exact (Resolved.Weaves.of_pending_eq hflat hp).imp And.left
    | broken =>
      have hbroken := resolve_weaves hflush indentWidth .broken false broken hb.agrees (.inl rfl)
        pending hp
      rw [hb.texts_eq_nil] at hbroken
      exact hbroken.imp fun ⟨hnil, _⟩ => ⟨hnil, hb.suffixDepth_eq_zero⟩
    | undecided =>
      have hbroken := @hblank .undecided (by simp) _ hb
      simp only [resolve, hflat.1, hbroken.1]
      exact .of_hasTexts (hflat.2.choice hbroken.2) hp And.left
  | conditional variants, .conditional ne h same back =>
    have htexts := same false
    cases state with
    | flat =>
      exact resolveFirst_weaves hflush indentWidth variants ne h
        (hstate.resolve_left (by simp)) pending hp
    | broken | undecided =>
      by_cases hnil : pending.isEmpty = true
      · obtain rfl := List.isEmpty_iff.mp hnil
        exact (resolveVariants_weaves hflush indentWidth variants ne h htexts back).imp And.right
      · rw [resolve, if_neg hnil]
        exact (resolveLast_weaves hflush indentWidth variants ne h htexts pending hp).imp
          fun hnone => absurd hnone.1 (by simpa using hnil)
  | lineSuffix contents, .lineSuffix h =>
    refine .of_hasTexts .nil ?_ fun hnone => absurd hnone.2 (Nat.succ_ne_zero _)
    exact List.forall_mem_append.mpr ⟨hp, List.forall_mem_singleton.mpr h⟩
  | suffixBoundary, _ => exact (resolveBoundary_weaves hflush hp).imp And.left
termination_by structural doc

theorem resolveAll_weaves (hflush : Flush.Settles flush) (indentWidth : Nat) (state : GroupState)
    (docs : List Doc) (h : ∀ doc ∈ docs, doc.Agrees)
    (hstate : state = .broken ∨ maxSuffixDepth docs = 0) (pending : List Doc)
    (hp : ∀ doc ∈ pending, doc.IsInert) :
    (resolveAll flush indentWidth state docs pending).Weaves
      (Alone pending (maxSuffixDepth docs)) (allTexts false docs) := by
  match docs with
  | [] => exact .of_hasTexts .nil hp And.left
  | doc :: docs =>
    obtain ⟨hdoc, hdocs⟩ := List.forall_mem_cons.mp h
    rw [maxSuffixDepth, Nat.max_eq_zero_iff] at hstate
    have hhere := resolve_weaves hflush indentWidth state (nextIsBreak state docs) doc hdoc
      (hstate.imp_right And.left) pending hp
    exact weaves_cons hhere
      (resolveAll_weaves hflush indentWidth state docs hdocs (hstate.imp_right And.right))
termination_by structural docs

theorem fillFromContent_weaves (hflush : Flush.Settles flush) (indentWidth : Nat)
    (parts : List Doc) (h : ∀ doc ∈ parts, doc.Agrees) (pending : List Doc)
    (hp : ∀ doc ∈ pending, doc.IsInert) :
    (fillFromContent flush indentWidth parts pending).Weaves
      (Alone pending (maxSuffixDepth parts)) (allTexts false parts) := by
  match parts with
  | [] => exact .of_hasTexts .nil hp And.left
  | content :: parts =>
    obtain ⟨hcontent, hparts⟩ := List.forall_mem_cons.mp h
    have hinner := innerState_cases hcontent false fun (hflat : GroupState.undecided = .flat) => by
      cases hflat
    have hhere := resolve_weaves hflush indentWidth _ false content hcontent hinner pending hp
    exact weaves_cons (hhere.inGroup _) (fillFromSeparator_weaves hflush indentWidth parts hparts)
termination_by structural parts

theorem fillFromSeparator_weaves (hflush : Flush.Settles flush) (indentWidth : Nat)
    (parts : List Doc) (h : ∀ doc ∈ parts, doc.Agrees) (pending : List Doc)
    (hp : ∀ doc ∈ pending, doc.IsInert) :
    (fillFromSeparator flush indentWidth parts pending).Weaves
      (Alone pending (maxSuffixDepth parts)) (allTexts false parts) := by
  match parts with
  | [] => exact .of_hasTexts .nil hp And.left
  | separator :: parts =>
    obtain ⟨hseparator, hparts⟩ := List.forall_mem_cons.mp h
    have hbroken := resolve_weaves hflush indentWidth .broken false separator hseparator (.inl rfl)
      pending hp
    have hflat (hzero : separator.suffixDepth = 0) :=
      resolve_weaves hflush indentWidth .flat false separator hseparator (.inr hzero) pending hp
    obtain ⟨here, hhere, heq⟩ :=
      exists_fillFromSeparator_eq hflush indentWidth hseparator parts hp hbroken hflat
    rw [heq]
    exact weaves_cons hhere (fillFromContent_weaves hflush indentWidth parts hparts)
termination_by structural parts

/-- Variants have the same texts, and if one holds something back **all but the last are passed
over**. -/
theorem resolveVariants_weaves (hflush : Flush.Settles flush) (indentWidth : Nat)
    (variants : List Doc) (ne : variants ≠ []) (h : ∀ doc ∈ variants, doc.Agrees)
    {xs : List String} (htexts : ∀ doc ∈ variants, doc.texts false = xs)
    (back : (∀ doc ∈ variants, doc.suffixDepth = 0) ∨
      ∀ doc ∈ variants.dropLast, doc.willBreak = true) :
    (resolveVariants flush indentWidth variants []).Weaves (maxSuffixDepth variants = 0) xs := by
  match variants with
  | variant :: others =>
    obtain ⟨hvariant, hothers⟩ := List.forall_mem_cons.mp h
    obtain ⟨hxs, hxs'⟩ := List.forall_mem_cons.mp htexts
    rw [resolveVariants]
    by_cases hlast : others.isEmpty = true
    · rw [if_pos hlast]
      have hhere := resolve_weaves hflush indentWidth .broken false variant hvariant (.inl rfl) []
        (by simp)
      rw [hxs] at hhere
      exact hhere.imp fun hdepth => ⟨rfl, (Nat.max_eq_zero_iff.mp hdepth).1⟩
    · have hne : others ≠ [] := by simpa using hlast
      rw [if_neg hlast]
      have hback : (∀ doc ∈ others, doc.suffixDepth = 0) ∨
          ∀ doc ∈ others.dropLast, doc.willBreak = true := by
        rw [List.dropLast_cons_of_ne_nil hne] at back
        exact back.imp (fun h => (List.forall_mem_cons.mp h).2) fun h =>
          (List.forall_mem_cons.mp h).2
      have hfallback := resolveVariants_weaves hflush indentWidth others hne hothers hxs' hback
      by_cases hbreak : variant.willBreak = true
      · rw [if_pos hbreak]
        exact hfallback.imp fun hdepth => (Nat.max_eq_zero_iff.mp hdepth).2
      · -- nothing is held back where the first variant need not break
        have hzeros : ∀ doc ∈ variant :: others, doc.suffixDepth = 0 :=
          back.resolve_right fun hall =>
          hbreak (hall variant (by simp [List.dropLast_cons_of_ne_nil hne]))
        obtain ⟨hzero, hzeros⟩ := List.forall_mem_cons.mp hzeros
        rw [← maxSuffixDepth_eq_zero_iff] at hzeros
        have hattempt :=
          resolve_weaves hflush indentWidth .flat false variant hvariant (.inr hzero) []
          (by simp)
        rw [hxs] at hattempt
        rw [if_neg hbreak, hfallback.nonePending hzeros]
        exact hattempt.firstFit ⟨rfl, hzero⟩ hfallback hzeros (hattempt.nonePending ⟨rfl, hzero⟩)
termination_by structural variants

theorem resolveFirst_weaves (hflush : Flush.Settles flush) (indentWidth : Nat)
    (variants : List Doc) (ne : variants ≠ []) (h : ∀ doc ∈ variants, doc.Agrees)
    (hdepth : maxSuffixDepth variants = 0) (pending : List Doc)
    (hp : ∀ doc ∈ pending, doc.IsInert) :
    (resolveFirst flush indentWidth variants pending).Weaves
      (Alone pending (maxSuffixDepth variants)) (firstTexts false variants) := by
  match variants with
  | variant :: others =>
    have hzero := (Nat.max_eq_zero_iff.mp hdepth).1
    exact (resolve_weaves hflush indentWidth .flat false variant (h variant List.mem_cons_self)
      (.inr hzero) pending hp).imp fun halone => ⟨halone.1, hzero⟩
termination_by structural variants

theorem resolveLast_weaves (hflush : Flush.Settles flush) (indentWidth : Nat)
    (variants : List Doc) (ne : variants ≠ []) (h : ∀ doc ∈ variants, doc.Agrees)
    {xs : List String} (htexts : ∀ doc ∈ variants, doc.texts false = xs) (pending : List Doc)
    (hp : ∀ doc ∈ pending, doc.IsInert) :
    (resolveLast flush indentWidth variants pending).Weaves
      (Alone pending (maxSuffixDepth variants)) xs := by
  match variants with
  | variant :: others =>
    obtain ⟨hvariant, hothers⟩ := List.forall_mem_cons.mp h
    obtain ⟨hxs, hxs'⟩ := List.forall_mem_cons.mp htexts
    rw [resolveLast]
    by_cases hlast : others.isEmpty = true
    · rw [if_pos hlast]
      have hhere := resolve_weaves hflush indentWidth .broken false variant hvariant (.inl rfl)
        pending hp
      rw [hxs] at hhere
      exact hhere.imp fun ⟨hnil, hdepth⟩ => ⟨hnil, (Nat.max_eq_zero_iff.mp hdepth).1⟩
    · rw [if_neg hlast]
      exact (resolveLast_weaves hflush indentWidth others
        (by simpa using hlast) hothers hxs' pending hp).imp fun ⟨hnil, hdepth⟩ =>
          ⟨hnil, (Nat.max_eq_zero_iff.mp hdepth).2⟩
termination_by structural variants

end

/-! ## Flushing -/

theorem IsInert.resolve_weaves {doc : Doc} (h : doc.IsInert) (hflush : Flush.Settles flush)
    (indentWidth : Nat) (hp : ∀ doc ∈ pending, doc.IsInert) :
    (resolve flush indentWidth .flat false doc pending).Weaves False [] := by
  have hdoc := Doc.resolve_weaves hflush indentWidth .flat false doc h.agrees
    (.inr h.suffixDepth_eq_zero) pending hp
  obtain ⟨ts, hts, hwoven, -⟩ := hdoc.texts
  exact ⟨⟨ts, hts, hwoven.of_inert h.forall_texts, False.elim⟩, hdoc.pending, False.elim⟩

theorem resolveEach_weaves (hflush : Flush.Settles flush) (indentWidth : Nat) {docs : List Doc}
    (h : ∀ doc ∈ docs, doc.IsInert) (hp : ∀ doc ∈ pending, doc.IsInert) :
    (resolveEach flush indentWidth docs pending).Weaves False [] := by
  induction docs generalizing pending with
  | nil => exact .of_hasTexts .nil hp False.elim
  | cons doc docs ih =>
    obtain ⟨hdoc, hdocs⟩ := List.forall_mem_cons.mp h
    have hhere := hdoc.resolve_weaves hflush indentWidth hp
    exact hhere.seq (ih hdocs hhere.pending) False.elim False.elim

/-- Whatever its depth, a flush prints **what is pending and nothing else**. -/
theorem flushAt_settles (indentWidth depth : Nat) : Flush.Settles (flushAt indentWidth depth) := by
  induction depth with
  | zero =>
    intro pending _
    exact .of_hasTexts .nil (by simp) False.elim
  | succ depth ih =>
    intro pending hp
    exact resolveEach_weaves ih indentWidth hp (by simp)

/-! ## At every width -/

/-- The layout of a document whose choices agree prints **the same texts however it is set**. -/
theorem exists_hasTexts_layout {doc : Doc} (h : doc.Agrees) (indentWidth : Nat) :
    ∃ ts, Woven (doc.texts false) ts ∧ (doc.layout indentWidth).HasTexts ts := by
  have hflush := flushAt_settles indentWidth doc.suffixDepth
  have hdoc := resolve_weaves hflush indentWidth .broken false doc h (.inl rfl) [] (by simp)
  obtain ⟨ts, hts, hwoven, -⟩ := hdoc.texts
  rw [layout]
  split_ifs
  · exact ⟨ts, hwoven, hts⟩
  · obtain ⟨us, hus, hwoven', -⟩ := (hflush _ hdoc.pending).texts
    have hboth := hwoven.append hwoven'
    rw [List.append_nil] at hboth
    exact ⟨ts ++ us, hboth, hts.seq hus⟩

/-- **The width never changes the content.**  A document whose choices agree is typeset as the same
texts at every width, set out with whitespace. -/
theorem exists_texts_pieces {doc : Doc} (h : doc.Agrees) (hchain : (doc.texts false).IsChain Meets)
    (indentWidth : Nat) :
    ∃ ts, ∀ o : LayoutOptions, o.indentWidth = indentWidth →
      SpacedOut ts ((doc.pieces o).flatMap (Piece.chars o)) ∧
        unspaced 0 ((doc.pieces o).flatMap (Piece.chars o)) =
          ts.flatMap fun s => unspaced 0 s.toList := by
  obtain ⟨ts, hwoven, htexts⟩ := exists_hasTexts_layout h indentWidth
  refine ⟨ts, ?_⟩
  rintro o rfl
  have hpieces := htexts _ _ (Layout.pieces_mayPrint o.printWidth (doc.layout o.indentWidth))
  have hset : SpacedOut ts ((doc.pieces o).flatMap (Piece.chars o)) := by
    rw [← hpieces]
    exact Piece.spacedOut o _
  refine ⟨hset, hset.unspaced_eq (hwoven.isChain hchain) fun t ht => ?_⟩
  rw [← hpieces] at ht
  exact Piece.isSpacing_of_mem_texts ht

end Doc

end Reflow
