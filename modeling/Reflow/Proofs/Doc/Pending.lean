import Reflow.Proofs.Doc.Outcome

/-!
# Proofs/Doc/Pending — what is left pending after a document

Text that is held back is pending until a line break takes it along.  A document that holds nothing
back leaves what was pending or, past a break, nothing (`Doc.resolve_leaves`), and a flush leaves
nothing at all (`Doc.flushAt_clears`).
-/

namespace Reflow

namespace Doc

/-- Pending documents that **hold nothing back** themselves. -/
def AllPlain (pending : List Doc) : Prop := ∀ doc ∈ pending, doc.suffixDepth = 0

theorem allPlain_nil : AllPlain [] := by simp [AllPlain]

/-- A flush that **leaves nothing pending** of plain documents. -/
def Flush.Clears (flush : Flush) : Prop := ∀ docs, AllPlain docs → (flush docs).pending = []

/-- What may be pending **later**: only plain documents, and nothing new if nothing is held back. -/
structure Leaves (pending : List Doc) (nothingBack : Prop) (later : List Doc) : Prop where
  plain : AllPlain later
  settled : nothingBack → later = [] ∨ later = pending

namespace Leaves

variable {pending next later : List Doc} {p q r : Prop}

theorem refl (h : AllPlain pending) : Leaves pending p pending := ⟨h, fun _ => .inr rfl⟩

theorem nil : Leaves pending p [] := ⟨allPlain_nil, fun _ => .inl rfl⟩

theorem imp (h : Leaves pending p later) (hqp : q → p) : Leaves pending q later :=
  ⟨h.plain, fun hq => h.settled (hqp hq)⟩

/-- One document after another.  To leave what was pending, **both have to hold nothing back**. -/
theorem trans (h : Leaves pending p next) (h' : Leaves next q later) (hr : r → p ∧ q) :
    Leaves pending r later := by
  refine ⟨h'.plain, fun hback => ?_⟩
  obtain ⟨hp, hq⟩ := hr hback
  obtain hnil | rfl := h'.settled hq
  · exact .inl hnil
  · exact h.settled hp

end Leaves

/-! ## Lines -/

section Lines

variable {flush : Flush} {pending : List Doc}

theorem pending_certainBreak (hflush : flush.Clears) (beforeBreak : Bool) (hp : AllPlain pending) :
    (certainBreak flush beforeBreak pending).pending = [] := by
  rw [certainBreak]
  by_cases hnone : pending.isEmpty = true
  · rw [if_pos hnone]
  · rw [if_neg hnone]
    exact hflush pending hp

/-- A boundary ends the line **only if something is pending**, so behind it nothing is. -/
theorem pending_boundary (hflush : flush.Clears) (hp : AllPlain pending) :
    (resolveBoundary flush pending).pending = [] := by
  rw [resolveBoundary]
  split_ifs
  · rfl
  · exact pending_certainBreak hflush false hp

/-- In a broken group **every line** is certain. -/
theorem pending_line_broken (hflush : flush.Clears) (kind : LineKind) (beforeBreak : Bool)
    (hp : AllPlain pending) :
    (resolveLine flush .broken kind beforeBreak pending).pending = [] := by
  cases kind <;> exact pending_certainBreak hflush beforeBreak hp

/-- A line that is sure to break prints what is pending, and any other **leaves it where it is**. -/
theorem resolveLine_leaves (hflush : flush.Clears) (state : GroupState) (kind : LineKind)
    (beforeBreak : Bool) (hp : AllPlain pending) {p : Prop} :
    Leaves pending p (resolveLine flush state kind beforeBreak pending).pending := by
  have hbreak : Leaves pending p (certainBreak flush beforeBreak pending).pending := by
    rw [pending_certainBreak hflush beforeBreak hp]
    exact .nil
  cases state with
  | broken => cases kind <;> exact hbreak
  | flat | undecided =>
    cases kind with
    | hard => exact hbreak
    | orSpace | orNil => exact .refl hp

end Lines

/-! ## Documents

By recursion on the document, one statement for each function of the resolver. -/

mutual

/-- **Resolving a document** leaves plain documents pending if it holds back no others, and nothing
new if it holds nothing back. -/
theorem resolve_leaves {flush : Flush} (hflush : flush.Clears) (indentWidth : Nat)
    (state : GroupState) (beforeBreak : Bool) (doc : Doc) (h : doc.suffixDepth ≤ 1)
    {pending : List Doc} (hp : AllPlain pending) :
    Leaves pending (doc.suffixDepth = 0)
      (resolve flush indentWidth state beforeBreak doc pending).pending := by
  match doc with
  | text s => exact .refl hp
  | concat docs => exact resolveAll_leaves hflush indentWidth state docs h hp
  | line kind => exact resolveLine_leaves hflush state kind beforeBreak hp
  | indent contents => exact resolve_leaves hflush indentWidth state false contents h hp
  | group shouldBreak contents => exact resolve_leaves hflush indentWidth _ false contents h hp
  | fill parts =>
    cases state with
    | flat => exact resolveAll_leaves hflush indentWidth .flat parts h hp
    | broken | undecided => exact fillFromContent_leaves hflush indentWidth parts h hp
  | ifBreak broken flat =>
    obtain ⟨hbroken, hflat⟩ := Nat.max_le.mp h
    cases state with
    | flat =>
      exact (resolve_leaves hflush indentWidth .flat false flat hflat hp).imp
        fun hnone => (Nat.max_eq_zero_iff.mp hnone).2
    | broken =>
      exact (resolve_leaves hflush indentWidth .broken false broken hbroken hp).imp
        fun hnone => (Nat.max_eq_zero_iff.mp hnone).1
    | undecided =>
      have hfirst := resolve_leaves hflush indentWidth .flat false flat hflat hp
      exact hfirst.trans (resolve_leaves hflush indentWidth .undecided false broken hbroken
        hfirst.plain) fun hnone => (Nat.max_eq_zero_iff.mp hnone).symm
  | conditional variants =>
    cases state with
    | flat => exact resolveFirst_leaves hflush indentWidth variants h hp
    | broken | undecided =>
      rw [resolve]
      split_ifs
      · exact resolveVariants_leaves hflush indentWidth variants h hp
      · exact resolveLast_leaves hflush indentWidth variants h hp
  | lineSuffix contents =>
    have hplain : contents.suffixDepth = 0 := Nat.le_zero.mp (Nat.le_of_succ_le_succ h)
    exact ⟨List.forall_mem_append.mpr ⟨hp, List.forall_mem_singleton.mpr hplain⟩,
      fun hnone => absurd hnone (Nat.succ_ne_zero _)⟩
  | suffixBoundary =>
    rw [resolve, pending_boundary hflush hp]
    exact .nil
termination_by structural doc

theorem resolveAll_leaves {flush : Flush} (hflush : flush.Clears) (indentWidth : Nat)
    (state : GroupState) (docs : List Doc) (h : maxSuffixDepth docs ≤ 1) {pending : List Doc}
    (hp : AllPlain pending) :
    Leaves pending (maxSuffixDepth docs = 0)
      (resolveAll flush indentWidth state docs pending).pending := by
  match docs with
  | [] => exact .refl hp
  | doc :: docs =>
    obtain ⟨hdoc, hdocs⟩ := Nat.max_le.mp h
    have hhere := resolve_leaves hflush indentWidth state (nextIsBreak state docs) doc hdoc hp
    exact hhere.trans (resolveAll_leaves hflush indentWidth state docs hdocs hhere.plain)
      Nat.max_eq_zero_iff.mp
termination_by structural docs

theorem fillFromContent_leaves {flush : Flush} (hflush : flush.Clears) (indentWidth : Nat)
    (parts : List Doc) (h : maxSuffixDepth parts ≤ 1) {pending : List Doc} (hp : AllPlain pending) :
    Leaves pending (maxSuffixDepth parts = 0)
      (fillFromContent flush indentWidth parts pending).pending := by
  match parts with
  | [] => exact .refl hp
  | content :: parts =>
    obtain ⟨hcontent, hparts⟩ := Nat.max_le.mp h
    have hhere := resolve_leaves hflush indentWidth (innerState .undecided content.willBreak) false
      content hcontent hp
    exact hhere.trans (fillFromSeparator_leaves hflush indentWidth parts hparts hhere.plain)
      Nat.max_eq_zero_iff.mp
termination_by structural parts

/-- With something pending a separator is resolved broken, and otherwise both ways, **the second
with what the first leaves**. -/
theorem fillFromSeparator_leaves {flush : Flush} (hflush : flush.Clears) (indentWidth : Nat)
    (parts : List Doc) (h : maxSuffixDepth parts ≤ 1) {pending : List Doc} (hp : AllPlain pending) :
    Leaves pending (maxSuffixDepth parts = 0)
      (fillFromSeparator flush indentWidth parts pending).pending := by
  match parts with
  | [] => exact .refl hp
  | separator :: parts =>
    obtain ⟨hseparator, hparts⟩ := Nat.max_le.mp h
    have hnext {next : List Doc} (hhere : Leaves pending (separator.suffixDepth = 0) next) :
        Leaves pending (maxSuffixDepth (separator :: parts) = 0)
          (fillFromContent flush indentWidth parts next).pending :=
      hhere.trans (fillFromContent_leaves hflush indentWidth parts hparts hhere.plain)
        Nat.max_eq_zero_iff.mp
    have hbroken := resolve_leaves hflush indentWidth .broken false separator hseparator hp
    rw [fillFromSeparator.eq_def]
    dsimp only
    split
    · rw [pending_certainBreak hflush _ hp]
      exact hnext .nil
    · exact hnext hbroken
    · exact hnext hbroken
    · exact hnext .nil
    · have hflat := resolve_leaves hflush indentWidth .flat false separator hseparator hp
      exact hnext (hflat.trans (resolve_leaves hflush indentWidth .broken false separator hseparator
        hflat.plain) fun hnone => ⟨hnone, hnone⟩)
termination_by structural parts

/-- The fallback is resolved first, and an attempt starts **with what it leaves pending**. -/
theorem resolveVariants_leaves {flush : Flush} (hflush : flush.Clears) (indentWidth : Nat)
    (variants : List Doc) (h : maxSuffixDepth variants ≤ 1) {pending : List Doc}
    (hp : AllPlain pending) :
    Leaves pending (maxSuffixDepth variants = 0)
      (resolveVariants flush indentWidth variants pending).pending := by
  match variants with
  | [] => exact .refl hp
  | variant :: others =>
    obtain ⟨hvariant, hothers⟩ := Nat.max_le.mp h
    have hfallback := resolveVariants_leaves hflush indentWidth others hothers hp
    rw [resolveVariants]
    split_ifs
    · exact (resolve_leaves hflush indentWidth .broken false variant hvariant hp).imp
        fun hnone => (Nat.max_eq_zero_iff.mp hnone).1
    · exact hfallback.imp fun hnone => (Nat.max_eq_zero_iff.mp hnone).2
    · exact hfallback.trans (resolve_leaves hflush indentWidth .flat false variant hvariant
        hfallback.plain) fun hnone => (Nat.max_eq_zero_iff.mp hnone).symm
termination_by structural variants

theorem resolveFirst_leaves {flush : Flush} (hflush : flush.Clears) (indentWidth : Nat)
    (variants : List Doc) (h : maxSuffixDepth variants ≤ 1) {pending : List Doc}
    (hp : AllPlain pending) :
    Leaves pending (maxSuffixDepth variants = 0)
      (resolveFirst flush indentWidth variants pending).pending := by
  match variants with
  | [] => exact .refl hp
  | variant :: others =>
    exact (resolve_leaves hflush indentWidth .flat false variant (Nat.max_le.mp h).1 hp).imp
      fun hnone => (Nat.max_eq_zero_iff.mp hnone).1
termination_by structural variants

theorem resolveLast_leaves {flush : Flush} (hflush : flush.Clears) (indentWidth : Nat)
    (variants : List Doc) (h : maxSuffixDepth variants ≤ 1) {pending : List Doc}
    (hp : AllPlain pending) :
    Leaves pending (maxSuffixDepth variants = 0)
      (resolveLast flush indentWidth variants pending).pending := by
  match variants with
  | [] => exact .refl hp
  | variant :: others =>
    obtain ⟨hvariant, hothers⟩ := Nat.max_le.mp h
    rw [resolveLast]
    split_ifs
    · exact (resolve_leaves hflush indentWidth .broken false variant hvariant hp).imp
        fun hnone => (Nat.max_eq_zero_iff.mp hnone).1
    · exact (resolveLast_leaves hflush indentWidth others hothers hp).imp
        fun hnone => (Nat.max_eq_zero_iff.mp hnone).2
termination_by structural variants

end

/-- **Every flush of the resolver** leaves nothing pending of plain documents. -/
theorem flushAt_clears (indentWidth depth : Nat) : Flush.Clears (flushAt indentWidth depth) := by
  induction depth with
  | zero => exact fun _ _ => rfl
  | succ depth ih =>
    intro docs hplain
    rw [flushAt]
    induction docs with
    | nil => rfl
    | cons doc docs ihdocs =>
      obtain ⟨hdoc, hdocs⟩ := List.forall_mem_cons.mp hplain
      have hhere := resolve_leaves ih indentWidth .flat false doc (by omega) allPlain_nil
      have hnone :
          (resolve (flushAt indentWidth depth) indentWidth .flat false doc []).pending = [] :=
        or_self_iff.mp (hhere.settled hdoc)
      rw [resolveEach, hnone]
      exact ihdocs hdocs

end Doc

end Reflow
