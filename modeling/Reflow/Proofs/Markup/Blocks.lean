import Reflow.Proofs.Doc.Fitting
import Reflow.Proofs.Layout.Lines
import Reflow.Proofs.Markup.Neat
import Reflow.Proofs.Markup.Wrapping

/-!
# Proofs/Markup/Blocks — children one a line, with empty lines between them

Children without text among them are laid out one a line.  The text behind a child is then nothing
but a gap: an empty line if it has two line breaks or more and another child follows, and otherwise
no trace (`Part.arrange_blocks`).  In the layout an empty line is a hard line before a content of
nothing and another hard line (`Doc.exists_resolveAll_stack`).
-/

namespace Reflow

/-! ## Documents on a line -/

namespace Doc

/-- A document that **stands on a line**: one level deep, with a line break behind it, it is set as
that line. -/
structure StandsOnLine (o : LayoutOptions) (doc : Doc) (line : List Char) : Prop where
  isEmpty : doc.isEmpty = false
  isLine : doc.isLine = false
  set (flush : Flush) (beforeBreak : Bool) : ∃ layout,
    resolve flush o.indentWidth .broken beforeBreak doc [] = ⟨layout, []⟩ ∧
      ∀ rest : Layout.Rest,
        (∀ column ≤ o.printWidth, (Layout.outlookRest o.printWidth rest column).fits = true) →
          (layout.set o.printWidth .broken o.indentWidth rest o.indentWidth).flatMap
            (Piece.chars o) = line

variable {o : LayoutOptions} {doc : Doc} {line : List Char}

/-- A document without lines stands on a line **at every width**. -/
theorem standsOnLine_of_isLineless (o : LayoutOptions) (h : doc.isLineless = true)
    (hne : doc.isEmpty = false) : doc.StandsOnLine o doc.ownText where
  isEmpty := hne
  isLine := by
    cases doc with
    | line => cases h
    | _ => rfl
  set flush beforeBreak := by
    obtain ⟨layout, hresolve, hset⟩ :=
      exists_resolve_of_isLineless h flush o.indentWidth .broken beforeBreak
    exact ⟨layout, hresolve, fun rest _ => hset o .broken o.indentWidth rest o.indentWidth⟩

/-- A group stands on a line **if there is room** for it. -/
theorem MayStayFlat.standsOnLine_grouped (h : doc.MayStayFlat)
    (hroom : o.indentWidth + Text.widths doc.flatTexts ≤ o.printWidth) :
    doc.grouped.StandsOnLine o (doc.flatTexts.flatMap String.toList) where
  isEmpty := rfl
  isLine := rfl
  set flush beforeBreak := by
    have hflat := flatAs_resolve flush o.indentWidth undecided_ne_broken false doc h
    refine ⟨_, h.resolve_grouped flush o.indentWidth beforeBreak, fun rest hrest => ?_⟩
    have hfits : Layout.fits o.printWidth rest o.indentWidth
        (resolve flush o.indentWidth .undecided false doc []).layout = true := by
      rw [Layout.fits, hflat.outlook hroom]
      exact hrest _ hroom
    rw [Layout.set, if_pos hfits, (hflat.set hroom o.indentWidth rest).chars]

/-- What stands on a line is **no line break**. -/
theorem StandsOnLine.nextIsBreak_cons (h : doc.StandsOnLine o line) (state : GroupState)
    (docs : List Doc) : nextIsBreak state (doc :: docs) = false := by
  have hne : (!doc.isEmpty) = true := by rw [h.isEmpty]; rfl
  rw [nextIsBreak, @List.find?_cons_of_pos _ (fun doc : Doc => !doc.isEmpty) doc docs hne]
  have hline := h.isLine
  cases doc with
  | line => cases hline
  | _ => rfl

end Doc

/-! ## Gaps -/

/-- No text, or one of blanks **with a line break**. -/
def IsGap (gap : Option String) : Prop := ∀ raw ∈ gap, Piece.IsBreak raw.toList

/-- Whether a text has **two line breaks** or more. -/
def isWideGap (gap : Option String) : Bool := gap.any fun raw => 2 ≤ raw.toList.count '\n'

namespace Part

/-- What a gap leaves: an empty content and a line if it is wide. -/
def ofGap (gap : Option String) : List Part := if isWideGap gap then [.empty, .line .hard] else []

theorem isMeaningful_of_isGap {raw : String} (h : Piece.IsBreak raw.toList) :
    Text.isMeaningful raw = false := by
  have hblank : raw.toList.any (fun c => !Text.isBlank c) = false := by
    rw [List.any_eq_false]
    exact fun c hc => by simp [h.2 c hc]
  rw [Text.isMeaningful, hblank, List.contains_eq_mem, decide_eq_true h.1]
  rfl

theorem ofChildren_gap (localized : Bool) {gap : Option String} (h : IsGap gap)
    (children : List Child) : ofChildren localized (gap.toList.map .text ++ children) =
      ofGap gap ++ ofChildren localized children := by
  rcases gap with _ | raw
  · rfl
  · have hbreak : Piece.IsBreak raw.toList := h raw rfl
    have hblank := ofText_of_isBlankRun hbreak.2
    rw [String.ofList_toList] at hblank
    have hparts : ofText localized (.text raw) children.head? (.blank (.ofRun raw.toList)) =
        ofGap (some raw) := by
      obtain ⟨n, hcount⟩ := Nat.exists_eq_add_one_of_ne_zero
        (List.count_pos_iff.mpr hbreak.1).ne'
      rw [ofGap, isWideGap, Option.any_some, Whitespace.ofRun, hcount]
      rcases n with _ | n
      · rfl
      · rw [if_pos (decide_eq_true (Nat.le_add_left 2 n))]
        rfl
    rw [Option.toList_some, List.map_singleton, List.singleton_append, ofChildren, ofChild, hblank,
      hparts]

end Part

/-! ## Blocks -/

/-- Texts as lines one level deep.  **An empty line** stands behind a text that asks for it, unless
it is the last. -/
def Line.stack : List (List Char × Bool) → List Line
  | [] => []
  | [(text, _)] => [⟨1, text⟩]
  | (text, apart) :: next :: others =>
    ⟨1, text⟩ :: ((if apart then [⟨0, []⟩] else []) ++ stack (next :: others))

/-- A **child on a line of its own**: what it is, its document and line, and the text behind it, if
there is one. -/
structure Block (o : LayoutOptions) where
  kind : ChildKind
  doc : Doc
  line : List Char
  gap : Option String
  kind_ne : kind ≠ .other
  stands : doc.StandsOnLine o line
  isGap : IsGap gap

namespace Block

variable {o : LayoutOptions}

/-- The children that blocks are, with the texts between them. -/
def children (blocks : List (Block o)) : List Child :=
  blocks.flatMap fun block => .printed block.kind block.doc :: block.gap.toList.map .text

/-- The parts of blocks: **a stack**, in which a wide gap between two of them
leaves an empty content. -/
def stack : List (Block o) → List Part
  | [] => []
  | [block] => [.printed block.doc]
  | block :: next :: blocks =>
    .printed block.doc :: .line .hard :: (Part.ofGap block.gap ++ stack (next :: blocks))

/-- The lines of blocks, **an empty one** in a wide gap between two of them. -/
def lines (blocks : List (Block o)) : List Line :=
  Line.stack (blocks.map fun block => (block.line, isWideGap block.gap))

theorem lines_cons_cons (block next : Block o) (blocks : List (Block o)) :
    lines (block :: next :: blocks) =
      ⟨1, block.line⟩ ::
      ((if isWideGap block.gap then [⟨0, []⟩] else []) ++ lines (next :: blocks)) :=
  rfl

end Block

namespace Part

open Block (stack)

variable {o : LayoutOptions} {blocks : List (Block o)}

theorem separatorAfter_block (localized : Bool) (block : Block o) (blocks : List (Block o)) :
    separatorAfter localized (.printed block.kind block.doc)
      (block.gap.toList.map Child.text ++ Block.children blocks).head? = .line .hard := by
  cases hgap : block.gap with
  | none => rcases blocks with _ | ⟨next, blocks⟩ <;> rfl
  | some raw =>
    have hblank := isMeaningful_of_isGap (block.isGap raw hgap)
    rw [Option.toList_some, List.map_singleton, List.singleton_append, List.head?_cons]
    simp only [separatorAfter, hblank, Bool.false_eq_true, if_false]

/-- The parts of blocks, as they come from the children. -/
def ofBlocks (blocks : List (Block o)) : List Part :=
  blocks.flatMap fun block => .printed block.doc :: .line .hard :: ofGap block.gap

theorem ofBlocks_cons (block : Block o) (blocks : List (Block o)) :
    ofBlocks (block :: blocks) =
      .printed block.doc :: .line .hard :: (ofGap block.gap ++ ofBlocks blocks) := rfl

theorem startsEmpty_ofBlocks (blocks : List (Block o)) : startsEmpty (ofBlocks blocks) = false := by
  cases blocks <;> rfl

theorem ofChildren_blocks (localized : Bool) (blocks : List (Block o)) :
    ofChildren localized (Block.children blocks) = ofBlocks blocks := by
  induction blocks with
  | nil => rfl
  | cons block blocks ih =>
    have hchildren : Block.children (block :: blocks) = .printed block.kind block.doc ::
        (block.gap.toList.map Child.text ++ Block.children blocks) := rfl
    rw [hchildren, ofChildren, ofChild, separatorAfter_block,
      ofChildren_gap localized block.isGap, ih]
    rfl

/-- In front of blocks a gap **is not merged** with anything. -/
theorem merge_gap (gap : Option String) {blocks : List (Block o)}
    (h : merge false (ofBlocks blocks) = ofBlocks blocks) :
    merge false (ofGap gap ++ ofBlocks blocks) = ofGap gap ++ ofBlocks blocks := by
  rw [ofGap]
  split_ifs
  · rw [List.cons_append, List.singleton_append, merge_cons, merge_cons, h,
      mergeStep_of_not_startsEmpty _ (startsEmpty_ofBlocks blocks),
      mergeStep_of_not_startsEmpty _ rfl]
  · exact h

/-- Without text there is **nothing to merge** among blocks: two lines around an
empty content are kept. -/
theorem merge_ofBlocks (blocks : List (Block o)) :
    merge false (ofBlocks blocks) = ofBlocks blocks := by
  induction blocks with
  | nil => rfl
  | cons block blocks ih =>
    rw [ofBlocks_cons, merge_cons, merge_cons, merge_gap block.gap ih,
      @mergeStep_of_isFilled _ (.printed _) rfl, ofGap]
    split_ifs
    · rfl
    · rw [List.nil_append, mergeStep_of_not_startsEmpty _ (startsEmpty_ofBlocks blocks)]

theorem trimEnd_append_of_ne_nil (front : List Part) {parts : List Part} (h : trimEnd parts ≠ []) :
    trimEnd (front ++ parts) = front ++ trimEnd parts := by
  induction front with
  | nil => rfl
  | cons part front ih =>
    have hne : trimEnd (front ++ parts) ≠ [] := by
      rw [ih]
      exact List.append_ne_nil_of_right_ne_nil front h
    rw [List.cons_append, trimEnd_cons_of_ne_nil part hne, ih, List.cons_append]

theorem stack_ne_nil (hne : blocks ≠ []) : stack blocks ≠ [] := by
  rcases blocks with _ | ⟨block, _ | ⟨next, blocks⟩⟩
  · exact absurd rfl hne
  · exact List.cons_ne_nil _ _
  · exact List.cons_ne_nil _ _

/-- Behind the last block **everything goes**, the line and the gap. -/
theorem trimEnd_ofBlocks (blocks : List (Block o)) : trimEnd (ofBlocks blocks) = stack blocks := by
  induction blocks with
  | nil => rfl
  | cons block blocks ih =>
    rw [ofBlocks_cons, trimEnd_cons_of_not _ rfl]
    rcases blocks with _ | ⟨next, blocks⟩
    · have hnone :
          trimEnd (.line .hard :: (ofGap block.gap ++ ofBlocks ([] : List (Block o)))) = [] := by
        rw [ofGap]
        split_ifs <;> rfl
      rw [hnone, stack]
    · have hne : trimEnd (ofBlocks (next :: blocks)) ≠ [] := by
        rw [ih]
        exact stack_ne_nil (List.cons_ne_nil next blocks)
      have hrest := trimEnd_append_of_ne_nil (.line .hard :: ofGap block.gap) hne
      rw [List.cons_append] at hrest
      rw [hrest, ih, stack, List.cons_append]

theorem trimStart_stack (blocks : List (Block o)) : trimStart (stack blocks) = stack blocks := by
  rcases blocks with _ | ⟨block, _ | ⟨next, blocks⟩⟩ <;> rfl

/-- Blocks behind a gap are laid out **as a stack**: the gap in front leaves nothing. -/
theorem arrange_blocks (localized : Bool) {gap : Option String} (hgap : IsGap gap)
    (hne : blocks ≠ []) :
    arrange localized false (gap.toList.map .text ++ Block.children blocks) = stack blocks := by
  have hstack := trimEnd_ofBlocks blocks
  have hne' : trimEnd (ofBlocks blocks) ≠ [] := hstack ▸ stack_ne_nil hne
  rw [arrange, ofChildren_gap localized hgap, ofChildren_blocks,
    merge_gap gap (merge_ofBlocks blocks), trim, trimEnd_append_of_ne_nil _ hne', hstack, ofGap]
  split_ifs <;> exact trimStart_stack blocks

end Part

/-! ## The stack on lines -/

namespace Doc

variable {o : LayoutOptions}

/-- The documents of a stack, which has no spaces. -/
def ofStack (space : Doc) (blocks : List (Block o)) : List Doc :=
  (Block.stack blocks).map (Part.doc space)

theorem nextIsBreak_ofStack (space : Doc) (block : Block o) (blocks : List (Block o)) :
    nextIsBreak .broken (ofStack space (block :: blocks)) = false := by
  rcases blocks with _ | ⟨next, blocks⟩
  · exact block.stands.nextIsBreak_cons _ _
  · exact block.stands.nextIsBreak_cons _ _

/-- What stands between a block and the next one: a line break, **or two of them**. -/
def gapLayout (gap : Option String) (later : Layout) : Layout :=
  if isWideGap gap then .seq .blankLine (.seq (.text "") (.seq .newline later))
    else .seq .newline later

/-- Behind a block **there is room** for a line break. -/
theorem fits_outlookRest_gapLayout (gap : Option String) (later : Layout) {rest : Layout.Rest}
    {column : Nat} (hcolumn : column ≤ o.printWidth) :
    (Layout.outlookRest o.printWidth ((.broken, gapLayout gap later) :: rest) column).fits =
      true := by
  rw [gapLayout]
  split_ifs
  · simp only [Layout.outlookRest, Layout.outlook, Outlook.andThen_assoc]
    exact Outlook.fits_upTo_andThen.mpr ⟨hcolumn, Outlook.fits_upTo_andThen.mpr ⟨hcolumn, rfl⟩⟩
  · rfl

/-- The first of two line breaks leaves **a line that is empty**, without indentation. -/
theorem set_gapLayout (gap : Option String) (later : Layout) (rest : Layout.Rest) (column : Nat) :
    ((gapLayout gap later).set o.printWidth .broken o.indentWidth rest column).flatMap
      (Piece.chars o) = (if isWideGap gap then o.lineBreak.chars else []) ++
        ((Piece.newline o.indentWidth).chars o ++
          (later.set o.printWidth .broken o.indentWidth rest o.indentWidth).flatMap
            (Piece.chars o)) := by
  rw [gapLayout]
  split_ifs
  · simp [Layout.set, Piece.columnAfter, Piece.chars]
  · simp [Layout.set, Piece.columnAfter, Piece.chars]

/-- **One block**, and the break behind it. -/
theorem exists_resolveAll_block (space : Doc) (flush : Flush) (block next : Block o)
    (blocks : List (Block o)) {later : Layout}
    (hlater : resolveAll flush o.indentWidth .broken (ofStack space (next :: blocks)) [] =
      ⟨later, []⟩) :
    ∃ own, resolveAll flush o.indentWidth .broken (ofStack space (block :: next :: blocks)) [] =
        ⟨.seq own (gapLayout block.gap later), []⟩ ∧
      ∀ rest : Layout.Rest,
        (∀ column ≤ o.printWidth, (Layout.outlookRest o.printWidth rest column).fits = true) →
          (own.set o.printWidth .broken o.indentWidth rest o.indentWidth).flatMap (Piece.chars o) =
            block.line := by
  have hnext := nextIsBreak_ofStack space next blocks
  have hdocs : ofStack space (block :: next :: blocks) = block.doc :: .line .hard ::
      ((if isWideGap block.gap then [.text "", .line .hard] else []) ++
        ofStack space (next :: blocks)) := by
    rw [ofStack, Block.stack, List.map_cons, List.map_cons, List.map_append, Part.ofGap, ofStack]
    split_ifs <;> rfl
  obtain ⟨own, hown, hset⟩ := block.stands.set flush true
  refine ⟨own, ?_, hset⟩
  have hbreak (beforeBreak : Bool) :
      resolve flush o.indentWidth .broken beforeBreak (.line .hard) [] =
        ⟨if beforeBreak then .blankLine else .newline, []⟩ := rfl
  have hnothing (beforeBreak : Bool) :
      resolve flush o.indentWidth .broken beforeBreak (.text "") [] = ⟨.text "", []⟩ := rfl
  have hahead (docs : List Doc) : nextIsBreak .broken (.line .hard :: docs) = true := rfl
  have hempty (docs : List Doc) : nextIsBreak .broken (.text "" :: .line .hard :: docs) = true :=
    rfl
  rw [hdocs, gapLayout]
  split_ifs
  · simp only [List.cons_append, List.nil_append, resolveAll, hahead, hown, hempty, hbreak,
      hnothing, hnext, hlater, if_true, Bool.false_eq_true, if_false]
  · simp only [List.nil_append, resolveAll, hahead, hown, hbreak, hnext, hlater, Bool.false_eq_true,
      if_false]

/-- On lines of its own a stack is set **as its lines**, each after a line break. -/
theorem exists_resolveAll_stack (hindent : 0 < o.indentWidth) (space : Doc) (flush : Flush)
    {blocks : List (Block o)} (hne : blocks ≠ []) :
    ∃ layout, resolveAll flush o.indentWidth .broken (ofStack space blocks) [] = ⟨layout, []⟩ ∧
      ∀ rest : Layout.Rest,
        (∀ column ≤ o.printWidth, (Layout.outlookRest o.printWidth rest column).fits = true) →
          (Piece.newline o.indentWidth).chars o ++
              (layout.set o.printWidth .broken o.indentWidth rest o.indentWidth).flatMap
                (Piece.chars o) =
            (Block.lines blocks).flatMap fun line => o.lineBreak.chars ++ line.chars o := by
  have hlevel : Piece.indentation o o.indentWidth = Piece.levels o 1 := by
    rw [← Piece.indentation_mul hindent 1, Nat.one_mul]
  induction blocks with
  | nil => exact absurd rfl hne
  | cons block blocks ih =>
    rcases blocks with _ | ⟨next, blocks⟩
    · obtain ⟨own, hown, hset⟩ := block.stands.set flush false
      have hall : resolveAll flush o.indentWidth .broken (ofStack space [block]) [] =
          ⟨.seq own .nil, []⟩ := by
        change resolveAll flush o.indentWidth .broken [block.doc] [] = _
        rw [resolveAll, resolveAll]
        simp only [show nextIsBreak .broken [] = false from rfl, hown]
      refine ⟨_, hall, fun rest hrest => ?_⟩
      have hown' := hset ((.broken, .nil) :: rest) fun column hcolumn =>
        Outlook.fits_upTo_andThen.mpr ⟨hcolumn, hrest column hcolumn⟩
      rw [Layout.set, List.flatMap_append, hown', Layout.set, Block.lines, List.map_singleton,
        Line.stack, List.flatMap_singleton, Line.chars, Piece.chars, hlevel]
      simp only [List.flatMap_nil, List.append_nil, List.append_assoc]
    · obtain ⟨later, hlater, hlines⟩ := ih (List.cons_ne_nil next blocks)
      obtain ⟨own, hall, hset⟩ := exists_resolveAll_block space flush block next blocks hlater
      refine ⟨_, hall, fun rest hrest => ?_⟩
      have hown := hset ((.broken, gapLayout block.gap later) :: rest) fun column hcolumn =>
        fits_outlookRest_gapLayout block.gap later hcolumn
      rw [Layout.set, List.flatMap_append, hown, set_gapLayout, hlines rest hrest,
        Block.lines_cons_cons, List.flatMap_cons, List.flatMap_append, Line.chars,
        Piece.chars, hlevel]
      split_ifs
      · simp [Line.chars, Piece.levels_zero]
      · simp

end Doc

/-! ## Between two tags -/

namespace Block

variable {o : LayoutOptions} {blocks : List (Block o)}

theorem any_isMeaningfulText_children (blocks : List (Block o)) :
    (children blocks).any Child.isMeaningfulText = false := by
  rw [List.any_eq_false]
  intro child hchild
  obtain ⟨block, -, hmem⟩ := List.mem_flatMap.mp hchild
  obtain rfl | htext := List.mem_cons.mp hmem
  · exact Bool.false_ne_true
  · obtain ⟨raw, hraw, rfl⟩ := List.mem_map.mp htext
    rw [Child.isMeaningfulText,
      Part.isMeaningful_of_isGap (block.isGap raw (Option.mem_toList.mp hraw))]
    exact Bool.false_ne_true

theorem length_le_children (blocks : List (Block o)) :
    blocks.length ≤ (children blocks).length := by
  induction blocks with
  | nil => exact Nat.zero_le _
  | cons block blocks ih =>
    rw [children, List.flatMap_cons, List.length_append, List.length_cons, List.length_cons,
      Nat.add_comm]
    exact Nat.add_le_add (Nat.le_add_left 1 _) ih

/-- A block is markup or braces. -/
theorem isMarkup_or_isContainer (block : Block o) :
    (Child.printed block.kind block.doc).isMarkup = true ∨
      (Child.printed block.kind block.doc).isContainer = true := by
  cases hkind : block.kind with
  | markup => exact .inl rfl
  | container => exact .inr rfl
  | other => exact absurd hkind block.kind_ne

/-- Where none of the blocks is markup, **all are braces**. -/
theorem countP_isContainer_children (h : (children blocks).any Child.isMarkup = false) :
    (children blocks).countP Child.isContainer = blocks.length := by
  have htexts (gap : Option String) : (gap.toList.map Child.text).countP Child.isContainer = 0 := by
    cases gap <;> rfl
  induction blocks with
  | nil => rfl
  | cons block blocks ih =>
    have hchildren : children (block :: blocks) = .printed block.kind block.doc ::
        (block.gap.toList.map Child.text ++ children blocks) := rfl
    rw [hchildren, List.any_cons, Bool.or_eq_false_iff, List.any_append, Bool.or_eq_false_iff] at h
    obtain ⟨hmarkup, -, hblocks⟩ := h
    have hcontainer := block.isMarkup_or_isContainer.resolve_left (by simp [hmarkup])
    rw [hchildren, List.countP_cons, if_pos hcontainer, List.countP_append, htexts, ih hblocks,
      List.length_cons, Nat.zero_add]

theorem space_not_mem_stack (blocks : List (Block o)) : .space ∉ stack blocks := by
  rcases eq_or_ne blocks [] with rfl | hne
  · exact List.not_mem_nil
  · have hstack := Part.isStack_arrange false (any_isMeaningfulText_children blocks) false
    have harrange := @Part.arrange_blocks o blocks false none nofun hne
    rw [Option.toList_none, List.map_nil, List.nil_append] at harrange
    exact (harrange ▸ hstack).space_not_mem

end Block

namespace Shell

variable {o : LayoutOptions} {shell : Shell} {blocks : List (Block o)}

/-- Two blocks or more **never share a line**. -/
theorem mustBreak_blocks (shell : Shell) (gap : Option String) (hseveral : 2 ≤ blocks.length)
    (lines : List (Doc × Bool)) :
    shell.mustBreak (gap.toList.map .text ++ Block.children blocks) lines = true := by
  have hgap : (gap.toList.map Child.text).any Child.isMarkup = false := by cases gap <;> rfl
  have hcount : (gap.toList.map Child.text).countP Child.isContainer = 0 := by cases gap <;> rfl
  rw [mustBreak, List.any_append, hgap, List.countP_append, hcount]
  cases hmarkup : (Block.children blocks).any Child.isMarkup with
  | true => simp
  | false =>
    have hall := Block.countP_isContainer_children hmarkup
    simp [hall, Nat.lt_of_lt_of_le Nat.one_lt_two hseveral]

/-- So they are laid out **in a stack** between the tags. -/
theorem doc_blocks (language : LanguageOptions) (shell : Shell) {gap : Option String}
    (hgap : IsGap gap) (hseveral : 2 ≤ blocks.length) :
    shell.doc language false (gap.toList.map .text ++ Block.children blocks) =
      shell.multiline (.group true (.concat
        (Doc.ofStack (SpaceStyle.of language false).doc blocks))) := by
  have htext : (gap.toList.map Child.text ++ Block.children blocks).any Child.isMeaningfulText =
      false := by
    rw [List.any_append, Block.any_isMeaningfulText_children, Bool.or_false]
    rcases gap with _ | raw
    · rfl
    · simp [Child.isMeaningfulText, Part.isMeaningful_of_isGap (hgap raw rfl)]
  have hne : blocks ≠ [] := List.ne_nil_of_length_pos (by omega)
  have haround : shell.doc language false (gap.toList.map .text ++ Block.children blocks) =
      shell.around language false (gap.toList.map .text ++ Block.children blocks) := by
    refine doc_of_several language false shell ?_
    rw [List.length_append]
    exact hseveral.trans ((Block.length_le_children blocks).trans (Nat.le_add_left _ _))
  rw [haround, around, htext, Part.arrange_blocks shell.isLocalized hgap hne]
  simp only [mustBreak_blocks shell gap hseveral, if_true, Bool.false_eq_true, if_false, content,
    Part.multilineDocs, Part.multilineDocsAfter_fst (Block.space_not_mem_stack blocks)]
  rfl

/-- Blocks between two tags are **set as their lines**. -/
theorem exists_typeset_blocks (hindent : 0 < o.indentWidth) (htags : shell.HasLinelessTags)
    (space : Doc) (hne : blocks ≠ []) :
    ∃ output, (shell.multiline (.group true (.concat (Doc.ofStack space blocks)))).typeset o =
        .ok output ∧
      output.toList = o.lineBreak.chars.intercalate
        ((⟨0, shell.opening.ownText⟩ :: (Block.lines blocks ++ [⟨0, shell.closingDoc.ownText⟩])).map
          (Line.chars o)) := by
  set content := Doc.group true (.concat (Doc.ofStack space blocks)) with hcontent
  set flush := Doc.flushAt o.indentWidth (shell.multiline content).suffixDepth
  obtain ⟨opening, hopening, hopens⟩ :=
    Doc.exists_resolve_of_isLineless htags.opening flush o.indentWidth .broken false
  obtain ⟨closing, hclosing, hcloses⟩ :=
    Doc.exists_resolve_of_isLineless htags.closing flush o.indentWidth .broken false
  obtain ⟨body, hbody, hlines⟩ := Doc.exists_resolveAll_stack hindent space flush hne
  have hresolve : Doc.resolve flush o.indentWidth .broken false content [] = ⟨body, []⟩ := by
    rw [hcontent, Doc.resolve, Doc.resolve]
    simp only [Bool.true_or, Doc.innerState, if_true, Doc.inGroup, hbody]
  have hlayout := Doc.layout_eq_of_resolve
    (resolve_multiline htags.closing rfl hopening hresolve hclosing)
  refine ⟨_, by rw [Doc.typeset, if_neg hindent.ne'], ?_⟩
  -- behind the stack there is a line break, so nothing after it is looked at
  have hset :=
    hlines [(.broken, .nil), (.broken, .seq .newline (.seq closing .nil))] fun column hcolumn =>
    Outlook.fits_upTo_andThen.mpr ⟨hcolumn, rfl⟩
  rw [← Piece.append_flatMap_eq_intercalate, List.flatMap_append, ← hset, Piece.toList_write,
    Doc.pieces, hlayout, Layout.pieces]
  simp [Layout.set, hopens, hcloses, Piece.columnAfter, Piece.chars, Line.chars, Piece.levels_zero]

end Shell

end Reflow
