import Reflow.Proofs.Doc.Agreement

/-!
# Proofs/Doc/Depth — how deep a flush has to go

What is held back may hold back more, so a flush is told how deep it has to go.  A flush that goes
deeper does the same (`Doc.flushAt_agreeBelow`): what is pending after it holds back no deeper than
what was pending before, and a document never leaves anything pending that holds back as much as
itself.  So a document is resolved alike by every flush that goes as deep as the document does
(`Doc.layout_eq_finish`).
-/

namespace Reflow

namespace Doc

/-- Pending documents that hold back **less than `n` deep**. -/
def AllBelow (n : Nat) (pending : List Doc) : Prop := ∀ doc ∈ pending, doc.suffixDepth < n

theorem allBelow_nil (n : Nat) : AllBelow n [] := by simp [AllBelow]

theorem eq_nil_of_allBelow_zero {pending : List Doc} (h : AllBelow 0 pending) : pending = [] :=
  List.eq_nil_iff_forall_not_mem.mpr fun doc hdoc => Nat.not_lt_zero _ (h doc hdoc)

theorem AllBelow.mono {m n : Nat} {pending : List Doc} (h : AllBelow m pending) (hle : m ≤ n) :
    AllBelow n pending := fun doc hdoc => (h doc hdoc).trans_le hle

/-- Flushes that **do the same** with documents that hold back less than `n` deep, and leave only
such documents pending. -/
structure Flush.AgreeBelow (n : Nat) (flush flush' : Flush) : Prop where
  eq {docs : List Doc} (h : AllBelow n docs) : flush docs = flush' docs
  below {docs : List Doc} (h : AllBelow n docs) : AllBelow n (flush docs).pending

end Doc

/-- What is resolved **alike**, and leaves only documents pending that hold back
less than `n` deep. -/
structure Resolved.AgreeBelow (n : Nat) (r r' : Resolved) : Prop where
  eq : r = r'
  below : Doc.AllBelow n r.pending

namespace Resolved.AgreeBelow

variable {n : Nat} {r r' : Resolved}

theorem of_below {layout : Layout} {pending : List Doc} (h : Doc.AllBelow n pending) :
    AgreeBelow n ⟨layout, pending⟩ ⟨layout, pending⟩ := ⟨rfl, h⟩

theorem nest (h : r.AgreeBelow n r') (columns : Nat) :
    AgreeBelow n ⟨.nest columns r.layout, r.pending⟩ ⟨.nest columns r'.layout, r'.pending⟩ := by
  obtain ⟨rfl, hbelow⟩ := h
  exact .of_below hbelow

theorem inGroup (h : r.AgreeBelow n r') (state : GroupState) :
    AgreeBelow n ⟨Doc.inGroup state r.layout, r.pending⟩
      ⟨Doc.inGroup state r'.layout, r'.pending⟩ := by
  obtain ⟨rfl, hbelow⟩ := h
  exact .of_below hbelow

/-- Two results, of which the second **sees what the first leaves pending**, joined to one. -/
theorem join (h : r.AgreeBelow n r') (join : Layout → Layout → Layout)
    {next next' : List Doc → Resolved}
    (hnext : ∀ pending, Doc.AllBelow n pending → (next pending).AgreeBelow n (next' pending)) :
    AgreeBelow n ⟨join r.layout (next r.pending).layout, (next r.pending).pending⟩
      ⟨join r'.layout (next' r'.pending).layout, (next' r'.pending).pending⟩ := by
  obtain ⟨rfl, hbelow⟩ := h
  have hlater := hnext r.pending hbelow
  rw [← hlater.eq]
  exact .of_below hlater.below

end Resolved.AgreeBelow

namespace Doc

/-! ## Lines and separators -/

section Lines

variable {n : Nat} {flush flush' : Flush} {pending : List Doc}

theorem certainBreak_agreeBelow (hflush : Flush.AgreeBelow n flush flush') (beforeBreak : Bool)
    (hp : AllBelow n pending) :
    (certainBreak flush beforeBreak pending).AgreeBelow n
      (certainBreak flush' beforeBreak pending) := by
  rw [certainBreak, certainBreak, ← hflush.eq hp]
  split_ifs
  · exact .of_below (allBelow_nil n)
  · exact .of_below (allBelow_nil n)
  · exact .of_below (hflush.below hp)
  · exact .of_below (hflush.below hp)

/-- Only a line that is sure to break **asks the flush** at all. -/
theorem resolveLine_agreeBelow (hflush : Flush.AgreeBelow n flush flush') (state : GroupState)
    (kind : LineKind) (beforeBreak : Bool) (hp : AllBelow n pending) :
    (resolveLine flush state kind beforeBreak pending).AgreeBelow n
      (resolveLine flush' state kind beforeBreak pending) := by
  have hbreak := certainBreak_agreeBelow hflush beforeBreak hp
  cases state with
  | broken => cases kind <;> exact hbreak
  | flat | undecided =>
    cases kind with
    | hard => exact hbreak
    | orSpace | orNil => exact .of_below hp

theorem resolveBoundary_agreeBelow (hflush : Flush.AgreeBelow n flush flush')
    (hp : AllBelow n pending) :
    (resolveBoundary flush pending).AgreeBelow n (resolveBoundary flush' pending) := by
  rw [resolveBoundary, resolveBoundary]
  split_ifs
  · exact .of_below (allBelow_nil n)
  · exact certainBreak_agreeBelow hflush false hp

end Lines

/-- A **separator** in front of contents. -/
def resolveSeparator (flush : Flush) (indentWidth : Nat) (beforeBreak : Bool) (separator : Doc)
    (pending : List Doc) : Resolved :=
  match separator.separatorKind, pending with
  | .hardLine, _ => certainBreak flush beforeBreak pending
  | .breaking, _ | _, _ :: _ => resolve flush indentWidth .broken false separator pending
  | .space, [] => ⟨.group (.softBreak 1), []⟩
  | .other, [] =>
    let whenFlat := resolve flush indentWidth .flat false separator []
    let whenBroken := resolve flush indentWidth .broken false separator whenFlat.pending
    ⟨.firstFit whenFlat.layout whenBroken.layout, whenBroken.pending⟩

/-- The rest of a fill is **a separator and what is behind it**, each a function of its own. -/
theorem fillFromSeparator_cons (flush : Flush) (indentWidth : Nat) (separator : Doc)
    (parts : List Doc) (pending : List Doc) :
    fillFromSeparator flush indentWidth (separator :: parts) pending =
      let here :=
        resolveSeparator flush indentWidth (nextIsBreak .undecided parts) separator pending
      let later := fillFromContent flush indentWidth parts here.pending
      ⟨.seq here.layout later.layout, later.pending⟩ :=
  rfl

/-- What **can become of a separator** that holds nothing back unless it is bound to break: a
certain break, the separator in a broken group, or with nothing pending a space or an attempt at it,
and nothing is pending after these. -/
theorem resolveSeparator_cases (flush : Flush) (indentWidth : Nat) (beforeBreak : Bool)
    {separator : Doc} (h : separator.willBreak = false → separator.suffixDepth = 0)
    (pending : List Doc) :
    let resolved := resolveSeparator flush indentWidth beforeBreak separator pending
    let resolvedIn := fun state => resolve flush indentWidth state false separator pending
    (separator = line .hard ∧ resolved = certainBreak flush beforeBreak pending) ∨
      resolved = resolvedIn .broken ∨
      (separator = line .orSpace ∧ pending = [] ∧ resolved = ⟨.group (.softBreak 1), []⟩) ∨
      (pending = [] ∧ separator.willBreak = false ∧ (∀ state, (resolvedIn state).pending = []) ∧
        resolved = ⟨.firstFit (resolvedIn .flat).layout (resolvedIn .broken).layout, []⟩) := by
  intro resolved resolvedIn
  cases hkind : separator.separatorKind with
  | hardLine =>
    refine .inl ⟨eq_hard_of_separatorKind hkind, ?_⟩
    simp only [resolved, resolveSeparator, hkind]
  | breaking =>
    refine .inr (.inl ?_)
    simp only [resolved, resolvedIn, resolveSeparator, hkind]
  | space =>
    cases pending with
    | nil =>
      refine .inr (.inr (.inl ⟨eq_orSpace_of_separatorKind hkind, rfl, ?_⟩))
      simp only [resolved, resolveSeparator, hkind]
    | cons =>
      refine .inr (.inl ?_)
      simp only [resolved, resolvedIn, resolveSeparator, hkind]
  | other =>
    cases pending with
    | nil =>
      have hbreak := willBreak_of_separatorKind hkind
      have hnone (state : GroupState) : (resolvedIn state).pending = [] :=
        (resolve_yields {} flush indentWidth state false separator (h hbreak)).pending
      refine .inr (.inr (.inr ⟨rfl, hbreak, hnone, ?_⟩))
      have hflat : (resolve flush indentWidth .flat false separator []).pending = [] := hnone .flat
      have hbroken : (resolve flush indentWidth .broken false separator []).pending = [] :=
        hnone .broken
      simp only [resolved, resolvedIn, resolveSeparator, hkind, hflat, hbroken]
    | cons =>
      refine .inr (.inl ?_)
      simp only [resolved, resolvedIn, resolveSeparator, hkind]

/-! ## Documents

By recursion on the document, one statement for each function of the resolver. -/

section Documents

variable {n : Nat} {flush flush' : Flush}

mutual

/-- Flushes that agree below the depth of a document **resolve it alike**. -/
theorem resolve_agreeBelow (hflush : Flush.AgreeBelow n flush flush') (indentWidth : Nat)
    (state : GroupState) (beforeBreak : Bool) (doc : Doc) (h : doc.suffixDepth ≤ n)
    {pending : List Doc} (hp : AllBelow n pending) :
    (resolve flush indentWidth state beforeBreak doc pending).AgreeBelow n
      (resolve flush' indentWidth state beforeBreak doc pending) := by
  match doc with
  | text s => exact .of_below hp
  | concat docs => exact resolveAll_agreeBelow hflush indentWidth state docs h hp
  | line kind => exact resolveLine_agreeBelow hflush state kind beforeBreak hp
  | indent contents =>
    exact (resolve_agreeBelow hflush indentWidth state false contents h hp).nest indentWidth
  | group shouldBreak contents =>
    exact (resolve_agreeBelow hflush indentWidth _ false contents h hp).inGroup _
  | fill parts =>
    cases state with
    | flat => exact resolveAll_agreeBelow hflush indentWidth .flat parts h hp
    | broken | undecided => exact fillFromContent_agreeBelow hflush indentWidth parts h hp
  | ifBreak broken flat =>
    obtain ⟨hbroken, hflat⟩ := Nat.max_le.mp h
    cases state with
    | flat => exact resolve_agreeBelow hflush indentWidth .flat false flat hflat hp
    | broken => exact resolve_agreeBelow hflush indentWidth .broken false broken hbroken hp
    | undecided =>
      exact (resolve_agreeBelow hflush indentWidth .flat false flat hflat hp).join .choice
        fun _ => resolve_agreeBelow hflush indentWidth .undecided false broken hbroken
  | conditional variants =>
    cases state with
    | flat => exact resolveFirst_agreeBelow hflush indentWidth variants h hp
    | broken | undecided =>
      rw [resolve, resolve]
      split_ifs
      · exact resolveVariants_agreeBelow hflush indentWidth variants h hp
      · exact resolveLast_agreeBelow hflush indentWidth variants h hp
  | lineSuffix contents =>
    exact .of_below (List.forall_mem_append.mpr ⟨hp, List.forall_mem_singleton.mpr h⟩)
  | suffixBoundary => exact resolveBoundary_agreeBelow hflush hp
termination_by structural doc

theorem resolveAll_agreeBelow (hflush : Flush.AgreeBelow n flush flush') (indentWidth : Nat)
    (state : GroupState) (docs : List Doc) (h : maxSuffixDepth docs ≤ n) {pending : List Doc}
    (hp : AllBelow n pending) :
    (resolveAll flush indentWidth state docs pending).AgreeBelow n
      (resolveAll flush' indentWidth state docs pending) := by
  match docs with
  | [] => exact .of_below hp
  | doc :: docs =>
    obtain ⟨hdoc, hdocs⟩ := Nat.max_le.mp h
    exact (resolve_agreeBelow hflush indentWidth state _ doc hdoc hp).join .seq
      fun _ => resolveAll_agreeBelow hflush indentWidth state docs hdocs
termination_by structural docs

theorem fillFromContent_agreeBelow (hflush : Flush.AgreeBelow n flush flush') (indentWidth : Nat)
    (parts : List Doc) (h : maxSuffixDepth parts ≤ n) {pending : List Doc}
    (hp : AllBelow n pending) :
    (fillFromContent flush indentWidth parts pending).AgreeBelow n
      (fillFromContent flush' indentWidth parts pending) := by
  match parts with
  | [] => exact .of_below hp
  | content :: parts =>
    obtain ⟨hcontent, hparts⟩ := Nat.max_le.mp h
    exact ((resolve_agreeBelow hflush indentWidth _ false content hcontent hp).inGroup _).join .seq
      fun _ => fillFromSeparator_agreeBelow hflush indentWidth parts hparts
termination_by structural parts

theorem fillFromSeparator_agreeBelow (hflush : Flush.AgreeBelow n flush flush') (indentWidth : Nat)
    (parts : List Doc) (h : maxSuffixDepth parts ≤ n) {pending : List Doc}
    (hp : AllBelow n pending) :
    (fillFromSeparator flush indentWidth parts pending).AgreeBelow n
      (fillFromSeparator flush' indentWidth parts pending) := by
  match parts with
  | [] => exact .of_below hp
  | separator :: parts =>
    obtain ⟨hseparator, hparts⟩ := Nat.max_le.mp h
    have hbroken {pending : List Doc} (hp : AllBelow n pending) :=
      resolve_agreeBelow hflush indentWidth .broken false separator hseparator hp
    have hhere : (resolveSeparator flush indentWidth (nextIsBreak .undecided parts) separator
        pending).AgreeBelow n (resolveSeparator flush' indentWidth (nextIsBreak .undecided parts)
          separator pending) := by
      rw [resolveSeparator.eq_def, resolveSeparator.eq_def]
      cases separator.separatorKind with
      | hardLine => exact certainBreak_agreeBelow hflush _ hp
      | breaking => exact hbroken hp
      | space =>
        cases pending with
        | nil => exact .of_below hp
        | cons => exact hbroken hp
      | other =>
        cases pending with
        | nil =>
          exact (resolve_agreeBelow hflush indentWidth .flat false separator hseparator hp).join
            .firstFit fun _ => hbroken
        | cons => exact hbroken hp
    exact hhere.join .seq fun _ => fillFromContent_agreeBelow hflush indentWidth parts hparts
termination_by structural parts

theorem resolveVariants_agreeBelow (hflush : Flush.AgreeBelow n flush flush') (indentWidth : Nat)
    (variants : List Doc) (h : maxSuffixDepth variants ≤ n) {pending : List Doc}
    (hp : AllBelow n pending) :
    (resolveVariants flush indentWidth variants pending).AgreeBelow n
      (resolveVariants flush' indentWidth variants pending) := by
  match variants with
  | [] => exact .of_below hp
  | variant :: others =>
    obtain ⟨hvariant, hothers⟩ := Nat.max_le.mp h
    have hfallback := resolveVariants_agreeBelow hflush indentWidth others hothers hp
    rw [resolveVariants, resolveVariants]
    split_ifs
    · exact resolve_agreeBelow hflush indentWidth .broken false variant hvariant hp
    · exact hfallback
    · exact hfallback.join (fun fallback attempt => .firstFit attempt fallback)
        fun _ => resolve_agreeBelow hflush indentWidth .flat false variant hvariant
termination_by structural variants

theorem resolveFirst_agreeBelow (hflush : Flush.AgreeBelow n flush flush') (indentWidth : Nat)
    (variants : List Doc) (h : maxSuffixDepth variants ≤ n) {pending : List Doc}
    (hp : AllBelow n pending) :
    (resolveFirst flush indentWidth variants pending).AgreeBelow n
      (resolveFirst flush' indentWidth variants pending) := by
  match variants with
  | [] => exact .of_below hp
  | variant :: others =>
    exact resolve_agreeBelow hflush indentWidth .flat false variant (Nat.max_le.mp h).1 hp
termination_by structural variants

theorem resolveLast_agreeBelow (hflush : Flush.AgreeBelow n flush flush') (indentWidth : Nat)
    (variants : List Doc) (h : maxSuffixDepth variants ≤ n) {pending : List Doc}
    (hp : AllBelow n pending) :
    (resolveLast flush indentWidth variants pending).AgreeBelow n
      (resolveLast flush' indentWidth variants pending) := by
  match variants with
  | [] => exact .of_below hp
  | variant :: others =>
    obtain ⟨hvariant, hothers⟩ := Nat.max_le.mp h
    rw [resolveLast, resolveLast]
    split_ifs
    · exact resolve_agreeBelow hflush indentWidth .broken false variant hvariant hp
    · exact resolveLast_agreeBelow hflush indentWidth others hothers hp
termination_by structural variants

end

end Documents

/-! ## Flushing -/

/-- Flushing takes off **one level**: what it leaves pending holds back less. -/
theorem resolveEach_agreeBelow {n : Nat} {flush flush' : Flush}
    (hflush : Flush.AgreeBelow n flush flush') (indentWidth : Nat) {docs : List Doc}
    (h : AllBelow (n + 1) docs) {pending : List Doc} (hp : AllBelow n pending) :
    (resolveEach flush indentWidth docs pending).AgreeBelow n
      (resolveEach flush' indentWidth docs pending) := by
  induction docs generalizing pending with
  | nil => exact .of_below hp
  | cons doc docs ih =>
    obtain ⟨hdoc, hdocs⟩ := List.forall_mem_cons.mp h
    have hhere :=
      resolve_agreeBelow hflush indentWidth .flat false doc (Nat.le_of_lt_succ hdoc) hp
    exact hhere.join .seq fun _ => ih hdocs

/-- Flushes that **go deep enough** do the same. -/
theorem flushAt_agreeBelow (indentWidth : Nat) {n a b : Nat} (ha : n ≤ a) (hb : n ≤ b) :
    Flush.AgreeBelow n (flushAt indentWidth a) (flushAt indentWidth b) := by
  induction n generalizing a b with
  | zero =>
    refine ⟨fun h => ?_, fun h => ?_⟩
    · rw [eq_nil_of_allBelow_zero h]
      cases a <;> cases b <;> rfl
    · rw [eq_nil_of_allBelow_zero h]
      cases a <;> exact allBelow_nil 0
  | succ n ih =>
    obtain ⟨a, rfl⟩ := Nat.exists_eq_add_of_lt ha
    obtain ⟨b, rfl⟩ := Nat.exists_eq_add_of_lt hb
    have hagree : Flush.AgreeBelow n (flushAt indentWidth (n + a)) (flushAt indentWidth (n + b)) :=
      ih (Nat.le_add_right n a) (Nat.le_add_right n b)
    refine ⟨fun h => ?_, fun h => ?_⟩
    · exact (resolveEach_agreeBelow hagree indentWidth h (allBelow_nil n)).eq
    · exact (resolveEach_agreeBelow hagree indentWidth h (allBelow_nil n)).below.mono
        (Nat.le_succ n)

/-! ## Documents that stand alone -/

/-- What a document that stands alone is **resolved to**, before its end. -/
def alone (indentWidth : Nat) (doc : Doc) : Resolved :=
  resolve (flushAt indentWidth doc.suffixDepth) indentWidth .broken false doc []

/-- What a document that stands alone **leaves pending** for its end. -/
def leftPending (indentWidth : Nat) (doc : Doc) : List Doc := (doc.alone indentWidth).pending

theorem leftPending_below (indentWidth : Nat) (doc : Doc) :
    AllBelow doc.suffixDepth (doc.leftPending indentWidth) :=
  (resolve_agreeBelow (flushAt_agreeBelow indentWidth le_rfl le_rfl) indentWidth
    .broken false doc le_rfl (allBelow_nil _)).below

/-- A layout and, after it, **what is pending at the end**. -/
def Flush.finish (flush : Flush) (r : Resolved) : Layout :=
  if r.pending.isEmpty then r.layout else .seq r.layout (flush r.pending).layout

variable {doc : Doc} {depth : Nat}

/-- A document that stands alone is resolved alike by every flush that **goes as deep as the
document**. -/
theorem resolve_eq_alone (indentWidth : Nat) (h : doc.suffixDepth ≤ depth) :
    resolve (flushAt indentWidth depth) indentWidth .broken false doc [] = doc.alone indentWidth :=
  (resolve_agreeBelow (flushAt_agreeBelow indentWidth h le_rfl) indentWidth .broken false doc le_rfl
    (allBelow_nil _)).eq

/-- So it has **the same layout**, its end included. -/
theorem layout_eq_finish (indentWidth : Nat) (h : doc.suffixDepth ≤ depth) :
    doc.layout indentWidth = Flush.finish (flushAt indentWidth depth) (doc.alone indentWidth) := by
  have hflush : flushAt indentWidth depth (doc.leftPending indentWidth) =
      flushAt indentWidth doc.suffixDepth (doc.leftPending indentWidth) :=
    (flushAt_agreeBelow indentWidth h le_rfl).eq (leftPending_below indentWidth doc)
  rw [Flush.finish]
  change _ =
    if _ then _ else Layout.seq _ (flushAt indentWidth depth (doc.leftPending indentWidth)).layout
  rw [hflush]
  rfl

end Doc

end Reflow
