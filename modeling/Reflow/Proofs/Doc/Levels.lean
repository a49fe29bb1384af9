import Reflow.Proofs.Doc.Depth
import Reflow.Proofs.Doc.Texts
import Reflow.Proofs.Layout.Lines

/-!
# Proofs/Doc/Levels — tabs and line breaks are spelling

The resolver nests by whole levels only (`Doc.resolve_isLeveled`), and what it hands to the layout
knows nothing of tabs or of the mark between two lines.  So a document has its lines, each a level
and a text, and with every choice of these two options it is typeset as the same lines
(`Doc.typeset_eq_lines`).
-/

namespace Reflow

namespace Doc

/-- A document in which **every text** satisfies `P`, wherever it stands and whether or not it is
ever printed. -/
def EveryText (P : String → Prop) (doc : Doc) : Prop := ∀ s, (text s).Within doc → P s

/-- Documents in which every text satisfies `P`. -/
def AllTexts (P : String → Prop) (docs : List Doc) : Prop := ∀ doc ∈ docs, doc.EveryText P

theorem allTexts_nil (P : String → Prop) : AllTexts P [] := List.forall_mem_nil _

variable {P : String → Prop} {doc : Doc} {docs : List Doc}

@[simp] theorem everyText_text (s : String) : (text s).EveryText P ↔ P s :=
  ⟨fun h => h s .refl, fun h _ hs => by cases hs; exact h⟩

@[simp] theorem everyText_line (kind : LineKind) : (line kind).EveryText P := nofun

@[simp] theorem everyText_suffixBoundary : suffixBoundary.EveryText P := nofun

@[simp] theorem everyText_concat : (concat docs).EveryText P ↔ AllTexts P docs :=
  ⟨fun h _ hdoc s hs => h s (.concat hdoc hs), fun h s hs => by
    cases hs with
    | concat mem hs => exact h _ mem s hs⟩

@[simp] theorem everyText_fill : (fill docs).EveryText P ↔ AllTexts P docs :=
  ⟨fun h _ hdoc s hs => h s (.fill hdoc hs), fun h s hs => by
    cases hs with
    | fill mem hs => exact h _ mem s hs⟩

@[simp] theorem everyText_conditional : (conditional docs).EveryText P ↔ AllTexts P docs :=
  ⟨fun h _ hdoc s hs => h s (.variant hdoc hs), fun h s hs => by
    cases hs with
    | variant mem hs => exact h _ mem s hs⟩

@[simp] theorem everyText_indent : (indent doc).EveryText P ↔ doc.EveryText P :=
  ⟨fun h s hs => h s (.indent hs), fun h s hs => by
    cases hs with
    | indent hs => exact h s hs⟩

@[simp] theorem everyText_group (shouldBreak : Bool) :
    (group shouldBreak doc).EveryText P ↔ doc.EveryText P :=
  ⟨fun h s hs => h s (.group _ hs), fun h s hs => by
    cases hs with
    | group _ hs => exact h s hs⟩

@[simp] theorem everyText_ifBreak {broken flat : Doc} :
    (ifBreak broken flat).EveryText P ↔ broken.EveryText P ∧ flat.EveryText P :=
  ⟨fun h => ⟨fun s hs => h s (.broken flat hs), fun s hs => h s (.flat broken hs)⟩, fun h s hs => by
    cases hs with
    | broken _ hs => exact h.1 s hs
    | flat _ hs => exact h.2 s hs⟩

/-- What is held back is **part of the document** as well. -/
@[simp] theorem everyText_lineSuffix : (lineSuffix doc).EveryText P ↔ doc.EveryText P :=
  ⟨fun h s hs => h s (.lineSuffix hs), fun h s hs => by
    cases hs with
    | lineSuffix hs => exact h s hs⟩

end Doc

open Doc (AllTexts EveryText Flush)

/-- What is resolved is **nested by levels** of so many columns, and every text in it and in what is
pending satisfies `P`. -/
structure Resolved.IsLeveled (P : String → Prop) (columns : Nat) (r : Resolved) : Prop where
  layout : r.layout.IsLeveled P columns
  pending : AllTexts P r.pending

/-- A flush that **keeps to levels** and texts. -/
def Doc.Flush.IsLeveled (P : String → Prop) (columns : Nat) (flush : Flush) : Prop :=
  ∀ docs, AllTexts P docs → (flush docs).IsLeveled P columns

namespace Doc

section Levels

variable {P : String → Prop} {flush : Flush} {indentWidth : Nat} {pending : List Doc}

/-- A break has no column of its own: it is indented **by the levels around it**. -/
theorem certainBreak_isLeveled (hflush : flush.IsLeveled P indentWidth) (beforeBreak : Bool)
    (hp : AllTexts P pending) :
    (certainBreak flush beforeBreak pending).IsLeveled P indentWidth := by
  have hmark : (if beforeBreak then Layout.blankLine else .newline).IsLeveled P indentWidth := by
    split_ifs <;> trivial
  rw [certainBreak]
  by_cases hnone : pending.isEmpty = true
  · rw [if_pos hnone]
    exact ⟨hmark, Doc.allTexts_nil P⟩
  · rw [if_neg hnone]
    exact ⟨⟨(hflush pending hp).layout, hmark⟩, (hflush pending hp).pending⟩

/-- On one line a line may be a space, so **a space has to be allowed** as a text. -/
theorem resolveLine_isLeveled (hflush : flush.IsLeveled P indentWidth) (hspace : P " ")
    (state : GroupState) (kind : LineKind) (beforeBreak : Bool) (hp : AllTexts P pending) :
    (resolveLine flush state kind beforeBreak pending).IsLeveled P indentWidth := by
  have hbreak := certainBreak_isLeveled hflush beforeBreak hp
  cases kind with
  | hard => cases state <;> exact hbreak
  | orSpace =>
    cases state with
    | flat => exact ⟨hspace, hp⟩
    | broken => exact hbreak
    | undecided => exact ⟨trivial, hp⟩
  | orNil =>
    cases state with
    | broken => exact hbreak
    | flat | undecided => exact ⟨trivial, hp⟩

theorem resolveBoundary_isLeveled (hflush : flush.IsLeveled P indentWidth)
    (hp : AllTexts P pending) :
    (resolveBoundary flush pending).IsLeveled P indentWidth := by
  rw [resolveBoundary]
  split_ifs
  · exact ⟨trivial, Doc.allTexts_nil P⟩
  · exact certainBreak_isLeveled hflush false hp

/-- With or without a group around it, a layout is **nested as deep as before**. -/
theorem inGroup_isLeveled (state : GroupState) {layout : Layout}
    (h : layout.IsLeveled P indentWidth) :
    (inGroup state layout).IsLeveled P indentWidth := by
  cases state <;> exact h

/-! By recursion on the document, one statement for each function of the resolver. -/

mutual

/-- **Resolving keeps to whole levels**: only an indentation nests, and by one level. -/
theorem resolve_isLeveled (hflush : flush.IsLeveled P indentWidth) (hspace : P " ")
    (state : GroupState) (beforeBreak : Bool) (doc : Doc) (h : doc.EveryText P) {pending : List Doc}
    (hp : AllTexts P pending) :
    (resolve flush indentWidth state beforeBreak doc pending).IsLeveled P indentWidth := by
  match doc with
  | text s => exact ⟨(everyText_text s).mp h, hp⟩
  | concat docs => exact resolveAll_isLeveled hflush hspace state docs (everyText_concat.mp h) hp
  | line kind => exact resolveLine_isLeveled hflush hspace state kind beforeBreak hp
  | indent contents =>
    have inner := resolve_isLeveled hflush hspace state false contents (everyText_indent.mp h) hp
    exact ⟨⟨rfl, inner.layout⟩, inner.pending⟩
  | group shouldBreak contents =>
    have inner :=
      resolve_isLeveled hflush hspace (innerState state (shouldBreak || contents.willBreak))
      false contents ((everyText_group _).mp h) hp
    exact ⟨inGroup_isLeveled _ inner.layout, inner.pending⟩
  | fill parts =>
    cases state with
    | flat => exact resolveAll_isLeveled hflush hspace .flat parts (everyText_fill.mp h) hp
    | broken | undecided =>
      exact fillFromContent_isLeveled hflush hspace parts (everyText_fill.mp h) hp
  | ifBreak broken flat =>
    cases state with
    | flat => exact resolve_isLeveled hflush hspace .flat false flat (everyText_ifBreak.mp h).2 hp
    | broken =>
      exact resolve_isLeveled hflush hspace .broken false broken (everyText_ifBreak.mp h).1 hp
    | undecided =>
      have whenFlat :=
        resolve_isLeveled hflush hspace .flat false flat (everyText_ifBreak.mp h).2 hp
      have whenBroken :=
        resolve_isLeveled hflush hspace .undecided false broken
          (everyText_ifBreak.mp h).1 whenFlat.pending
      exact ⟨⟨whenFlat.layout, whenBroken.layout⟩, whenBroken.pending⟩
  | conditional variants =>
    cases state with
    | flat => exact resolveFirst_isLeveled hflush hspace variants (everyText_conditional.mp h) hp
    | broken | undecided =>
      rw [resolve]
      split_ifs
      · exact resolveVariants_isLeveled hflush hspace variants (everyText_conditional.mp h) hp
      · exact resolveLast_isLeveled hflush hspace variants (everyText_conditional.mp h) hp
  | lineSuffix contents =>
    exact ⟨trivial,
      List.forall_mem_append.mpr ⟨hp, List.forall_mem_singleton.mpr (everyText_lineSuffix.mp h)⟩⟩
  | suffixBoundary => exact resolveBoundary_isLeveled hflush hp
termination_by structural doc

/-- Documents in a row hand on what is pending, of which the texts **are allowed as well**. -/
theorem resolveAll_isLeveled (hflush : flush.IsLeveled P indentWidth) (hspace : P " ")
    (state : GroupState) (docs : List Doc) (h : AllTexts P docs) {pending : List Doc}
    (hp : AllTexts P pending) :
    (resolveAll flush indentWidth state docs pending).IsLeveled P indentWidth := by
  match docs with
  | [] => exact ⟨trivial, hp⟩
  | doc :: docs =>
    obtain ⟨hdoc, hdocs⟩ := List.forall_mem_cons.mp h
    have here := resolve_isLeveled hflush hspace state (nextIsBreak state docs) doc hdoc hp
    have later := resolveAll_isLeveled hflush hspace state docs hdocs here.pending
    exact ⟨⟨here.layout, later.layout⟩, later.pending⟩
termination_by structural docs

theorem fillFromContent_isLeveled (hflush : flush.IsLeveled P indentWidth) (hspace : P " ")
    (parts : List Doc) (h : AllTexts P parts) {pending : List Doc} (hp : AllTexts P pending) :
    (fillFromContent flush indentWidth parts pending).IsLeveled P indentWidth := by
  match parts with
  | [] => exact ⟨trivial, hp⟩
  | content :: parts =>
    obtain ⟨hcontent, hparts⟩ := List.forall_mem_cons.mp h
    have here :=
      resolve_isLeveled hflush hspace (innerState .undecided content.willBreak) false content
      hcontent hp
    have later := fillFromSeparator_isLeveled hflush hspace parts hparts here.pending
    exact ⟨⟨inGroup_isLeveled _ here.layout, later.layout⟩, later.pending⟩
termination_by structural parts

/-- Of a separator both layouts are kept, **the flat and the broken one**, so both
have to be leveled. -/
theorem fillFromSeparator_isLeveled (hflush : flush.IsLeveled P indentWidth) (hspace : P " ")
    (parts : List Doc) (h : AllTexts P parts) {pending : List Doc} (hp : AllTexts P pending) :
    (fillFromSeparator flush indentWidth parts pending).IsLeveled P indentWidth := by
  match parts with
  | [] => exact ⟨trivial, hp⟩
  | separator :: parts =>
    obtain ⟨hseparator, hparts⟩ := List.forall_mem_cons.mp h
    have hbroken {pending : List Doc} (hp : AllTexts P pending) :=
      resolve_isLeveled hflush hspace .broken false separator hseparator hp
    have here : (resolveSeparator flush indentWidth (nextIsBreak .undecided parts) separator
        pending).IsLeveled P indentWidth := by
      rw [resolveSeparator.eq_def]
      split
      · exact certainBreak_isLeveled hflush _ hp
      · exact hbroken hp
      · exact hbroken hp
      · exact ⟨trivial, Doc.allTexts_nil P⟩
      · have whenFlat := resolve_isLeveled hflush hspace .flat false separator hseparator hp
        exact ⟨⟨whenFlat.layout, (hbroken whenFlat.pending).layout⟩,
          (hbroken whenFlat.pending).pending⟩
    have later := fillFromContent_isLeveled hflush hspace parts hparts here.pending
    rw [fillFromSeparator_cons]
    exact ⟨⟨here.layout, later.layout⟩, later.pending⟩
termination_by structural parts

/-- An attempt may be given up at the width, so **any of the variants** may be
the one that is set. -/
theorem resolveVariants_isLeveled (hflush : flush.IsLeveled P indentWidth) (hspace : P " ")
    (variants : List Doc) (h : AllTexts P variants) {pending : List Doc} (hp : AllTexts P pending) :
    (resolveVariants flush indentWidth variants pending).IsLeveled P indentWidth := by
  match variants with
  | [] => exact ⟨trivial, hp⟩
  | variant :: others =>
    obtain ⟨hvariant, hothers⟩ := List.forall_mem_cons.mp h
    have fallback := resolveVariants_isLeveled hflush hspace others hothers hp
    have attempt := resolve_isLeveled hflush hspace .flat false variant hvariant fallback.pending
    rw [resolveVariants]
    split_ifs
    · exact resolve_isLeveled hflush hspace .broken false variant hvariant hp
    · exact fallback
    · exact ⟨⟨attempt.layout, fallback.layout⟩, attempt.pending⟩
termination_by structural variants

theorem resolveFirst_isLeveled (hflush : flush.IsLeveled P indentWidth) (hspace : P " ")
    (variants : List Doc) (h : AllTexts P variants) {pending : List Doc} (hp : AllTexts P pending) :
    (resolveFirst flush indentWidth variants pending).IsLeveled P indentWidth := by
  match variants with
  | [] => exact ⟨trivial, hp⟩
  | variant :: _ =>
    exact resolve_isLeveled hflush hspace .flat false variant (h _ List.mem_cons_self) hp
termination_by structural variants

theorem resolveLast_isLeveled (hflush : flush.IsLeveled P indentWidth) (hspace : P " ")
    (variants : List Doc) (h : AllTexts P variants) {pending : List Doc} (hp : AllTexts P pending) :
    (resolveLast flush indentWidth variants pending).IsLeveled P indentWidth := by
  match variants with
  | [] => exact ⟨trivial, hp⟩
  | variant :: others =>
    obtain ⟨hvariant, hothers⟩ := List.forall_mem_cons.mp h
    rw [resolveLast]
    split_ifs
    · exact resolve_isLeveled hflush hspace .broken false variant hvariant hp
    · exact resolveLast_isLeveled hflush hspace others hothers hp
termination_by structural variants

end

theorem resolveEach_isLeveled (hflush : flush.IsLeveled P indentWidth) (hspace : P " ")
    {docs : List Doc} (h : AllTexts P docs) (hp : AllTexts P pending) :
    (resolveEach flush indentWidth docs pending).IsLeveled P indentWidth := by
  induction docs generalizing pending with
  | nil => exact ⟨trivial, hp⟩
  | cons doc docs ih =>
    obtain ⟨hdoc, hdocs⟩ := List.forall_mem_cons.mp h
    have here := resolve_isLeveled hflush hspace .flat false doc hdoc hp
    have later := ih hdocs here.pending
    exact ⟨⟨here.layout, later.layout⟩, later.pending⟩

/-- By induction on how deep the flush goes: a line that breaks in what is flushed **asks
the flush below**. -/
theorem flushAt_isLeveled (hspace : P " ") (indentWidth depth : Nat) :
    (flushAt indentWidth depth).IsLeveled P indentWidth := by
  induction depth with
  | zero => exact fun _ _ => ⟨trivial, Doc.allTexts_nil P⟩
  | succ depth ih => exact fun docs h => resolveEach_isLeveled ih hspace h (List.forall_mem_nil _)

/-- The layout of a document is **nested by levels**. -/
theorem layout_isLeveled (hspace : P " ") (indentWidth : Nat) {doc : Doc} (h : doc.EveryText P) :
    (doc.layout indentWidth).IsLeveled P indentWidth := by
  have hflush := @flushAt_isLeveled P hspace indentWidth doc.suffixDepth
  have whole := resolve_isLeveled hflush hspace .broken false doc h (List.forall_mem_nil _)
  rw [layout]
  split_ifs
  · exact whole.layout
  · exact ⟨whole.layout, (hflush _ whole.pending).layout⟩

end Levels

/-- The **lines of a document**: the level each is indented by and what stands behind that, as its
pieces have them.  Neither tabs nor the mark between two lines are known here. -/
def lines (printWidth indentWidth : Nat) (doc : Doc) : List Line :=
  Piece.lines indentWidth ((doc.layout indentWidth).pieces printWidth)

/-- **Tabs and line breaks never change the layout.**  A document without a line feed in its texts
breaks lines at columns of whole levels.  In every spelling it is typeset as its lines, each behind
its levels of indentation, which are tabs or the columns of each level in spaces, and with the
configured mark between each two of them. -/
theorem typeset_eq_lines (printWidth : Nat) {indentWidth : Nat} (hindent : 0 < indentWidth)
    {doc : Doc} (h : doc.EveryText fun s => '\n' ∉ s.toList) :
    let lines := doc.lines printWidth indentWidth
    (∀ indent, .newline indent ∈ (doc.layout indentWidth).pieces printWidth →
      indentWidth ∣ indent) ∧ lines ≠ [] ∧ (∀ line ∈ lines, '\n' ∉ line.text) ∧
      ((doc.EveryText fun s => '\r' ∉ s.toList) → ∀ line ∈ lines, '\r' ∉ line.text) ∧
      ∀ useTabs lineBreak,
        doc.typeset ⟨printWidth, useTabs, indentWidth, lineBreak⟩ =
          .ok (String.ofList (lineBreak.chars.intercalate (lines.map fun line =>
            (if useTabs then List.replicate line.level '\t'
              else List.replicate (line.level * indentWidth) ' ') ++ line.text))) := by
  intro lines
  have hpieces {c : Char} (hblank : c ≠ ' ') (hc : doc.EveryText fun s => c ∉ s.toList) :=
    (layout_isLeveled (P := fun s => c ∉ s.toList) (by simpa using hblank) indentWidth hc).pieces
      printWidth
  refine ⟨fun indent hmem => hpieces (by decide) h (.newline indent) hmem, List.cons_ne_nil _ _,
    Piece.not_mem_lines (by decide) (hpieces (by decide) h),
    fun hreturn => Piece.not_mem_lines (by decide) (hpieces (by decide) hreturn), ?_⟩
  intro useTabs lineBreak
  let o : LayoutOptions := ⟨printWidth, useTabs, indentWidth, lineBreak⟩
  -- the pieces are the same in every spelling, and only then are they written
  have hwritten := Piece.write_eq_lines (o := o) hindent (hpieces (by decide) h)
  rw [typeset, if_neg hindent.ne']
  exact congrArg Except.ok (String.ext (hwritten.trans String.toList_ofList.symm))

/-- A call whose argument has a line of its own, and a block on a line of its own behind it. -/
theorem typeset_eq_lines_call :
    let doc := concat [text "f(", indent (concat [line .hard, text "x", indent (concat [line .hard,
      text "+ y"])]), line .hard, text ")"]
    (doc.EveryText fun s => '\n' ∉ s.toList) ∧
      doc.lines 80 4 = [⟨0, "f(".toList⟩, ⟨1, "x".toList⟩, ⟨2, "+ y".toList⟩, ⟨0, ")".toList⟩] ∧
      ∀ useTabs lineBreak,
        doc.typeset ⟨80, useTabs, 4, lineBreak⟩ =
          .ok (String.ofList (lineBreak.chars.intercalate ((doc.lines 80 4).map fun line =>
            (if useTabs then List.replicate line.level '\t'
              else List.replicate (line.level * 4) ' ') ++ line.text))) := by
  intro doc
  have htexts : doc.EveryText fun s => '\n' ∉ s.toList := by simp [doc, AllTexts]
  obtain ⟨-, -, -, -, htypeset⟩ := typeset_eq_lines 80 (by decide : 0 < 4) htexts
  exact ⟨htexts, by decide, htypeset⟩

end Doc

end Reflow
