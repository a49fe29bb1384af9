import Reflow.Proofs.Doc.Flat
import Reflow.Proofs.Markup.Filling
import Reflow.Proofs.Markup.Plain
import Reflow.Proofs.Markup.Texts
import Reflow.Proofs.Text.Wrapping

/-!
# Proofs/Markup/Wrapping — words between two tags

The words of a text are a filling with plain spaces, whose rows are the words wrapped greedily
(`Filling.Wraps.wrapped`).  A shell around them is set on one line if all of it is within the width,
and otherwise with these lines between its tags (`Shell.exists_typeset_words`).
-/

namespace Reflow

open Text (lineWidth lineChars Wrapped)

namespace Filling

/-! ## Words as a filling -/

/-- The contents of a filling. -/
def words : Filling → List String
  | nil => []
  | last s => [s]
  | cons s _ later => s :: later.words

/-- A filling of **words**, with a plain space between any two. -/
inductive IsWords : Filling → Prop
  | last (s : String) : IsWords (last s)
  | cons (s : String) {later : Filling} (h : IsWords later) : IsWords (cons s .space later)

theorem exists_isWords {ws : List String} (hne : ws ≠ []) :
    ∃ filling : Filling, filling.IsWords ∧ filling.words = ws := by
  induction ws with
  | nil => exact absurd rfl hne
  | cons w ws ih =>
    rcases ws with _ | ⟨next, ws⟩
    · exact ⟨last w, .last w, rfl⟩
    · obtain ⟨later, hlater, hwords⟩ := ih (List.cons_ne_nil next ws)
      exact ⟨cons w .space later, .cons w hlater, congrArg (w :: ·) hwords⟩

namespace IsWords

variable {filling : Filling}

theorem words_ne_nil (h : filling.IsWords) : filling.words ≠ [] := by
  cases h <;> exact List.cons_ne_nil _ _

/-- The words as parts of a fill are **the words of a text**. -/
theorem parts_eq (h : filling.IsWords) (space : Doc) :
    filling.parts = (Part.wordsLine filling.words).map (Part.doc space) := by
  induction h with
  | last s => rfl
  | @cons s later h ih =>
    obtain ⟨next, ws, hnext⟩ := List.exists_cons_of_ne_nil h.words_ne_nil
    rw [parts, ih, words, hnext]
    rfl

theorem width_eq (h : filling.IsWords) : filling.width = lineWidth filling.words := by
  induction h with
  | last s => exact (Nat.add_zero _).symm
  | @cons s later h ih =>
    have hlength := List.length_pos_iff.mpr h.words_ne_nil
    rw [width, ih, Separator.width, words, lineWidth, lineWidth, List.map_cons, List.sum_cons,
      List.length_cons]
    omega

theorem chars_pieces (h : filling.IsWords) (o : LayoutOptions) :
    filling.pieces.flatMap (Piece.chars o) = lineChars filling.words := by
  induction h with
  | last s => simp [pieces, words, lineChars, Piece.chars]
  | @cons s later h ih =>
    obtain ⟨next, ws, hnext⟩ := List.exists_cons_of_ne_nil h.words_ne_nil
    rw [hnext, lineChars, List.map_cons] at ih
    rw [pieces, List.flatMap_cons, List.flatMap_append, ih, words, hnext, lineChars, List.map_cons,
      List.map_cons, List.intercalate_cons_cons, List.append_assoc]
    rfl

/-- Without separators there is **one word**. -/
theorem length_words (h : filling.IsWords) (hnone : filling.separators = []) :
    filling.words.length = 1 := by
  cases h with
  | last => rfl
  | cons => cases hnone

theorem eq_space (h : filling.IsWords) : ∀ separator ∈ filling.separators, separator = .space := by
  induction h with
  | last => exact nofun
  | cons s h ih => exact List.forall_mem_cons.mpr ⟨rfl, ih⟩

end IsWords

/-! ## Rows as lines -/

/-- A row of **words**, broken at a plain space if at all. -/
structure Row.IsWords (row : Row) : Prop where
  contents : row.contents.IsWords
  stop : ∀ separator ∈ row.stop, separator = .space

namespace Row.IsWords

variable {row : Row}

/-- A plain space leaves **nothing** where the row is broken. -/
theorem left_eq_nil (h : row.IsWords) : row.left = [] := by
  rw [left, List.flatMap_eq_nil_iff]
  intro separator hseparator
  rw [h.stop separator (Option.mem_toList.mp hseparator)]
  rfl

theorem width_eq (h : row.IsWords) : row.width = lineWidth row.contents.words := by
  rw [width, leftWidth, h.left_eq_nil, h.contents.width_eq]
  rfl

theorem chars_pieces (h : row.IsWords) (o : LayoutOptions) :
    row.pieces.flatMap (Piece.chars o) = lineChars row.contents.words := by
  rw [pieces, h.left_eq_nil, List.map_nil, List.append_nil, h.contents.chars_pieces]

/-- A row reaches as far as **its first word**. -/
theorem reach_eq (h : row.IsWords) :
    ∀ word ∈ row.contents.words.head?, row.reach = Text.width word := by
  have hleft := h.left_eq_nil
  obtain ⟨contents, stop⟩ := row
  obtain ⟨hcontents, -⟩ := h
  cases hcontents with
  | last s =>
    rintro _ ⟨⟩
    rw [reach, leftWidth, hleft]
    rfl
  | cons s =>
    rintro _ ⟨⟩
    rfl

end Row.IsWords

namespace Wraps

variable {width indent column : Nat} {filling : Filling} {row : Row} {others : List Row}

/-- The rows of words are **rows of words**. -/
theorem isWords (h : Wraps width indent filling column row others) (hwords : filling.IsWords) :
    ∀ other ∈ row :: others, other.IsWords := by
  induction h with
  | nil => cases hwords
  | last s => exact List.forall_mem_singleton.mpr ⟨.last s, nofun⟩
  | keep kept tail ih =>
    cases hwords with
    | cons s hlater =>
      obtain ⟨hrow, hothers⟩ := List.forall_mem_cons.mp (ih hlater)
      exact List.forall_mem_cons.mpr ⟨⟨.cons _ hrow.contents, hrow.stop⟩, hothers⟩
  | stop stopped tail ih =>
    cases hwords with
    | cons s hlater =>
      refine List.forall_mem_cons.mpr ⟨⟨.last _, ?_⟩, ih hlater⟩
      rintro _ ⟨⟩
      rfl

theorem flatMap_words (h : Wraps width indent filling column row others) :
    (row :: others).flatMap (fun other => other.contents.words) = filling.words := by
  induction h with
  | nil | last => rfl
  | keep _ _ ih | stop _ _ ih => exact congrArg (_ :: ·) ih

/-- Words that start at the indentation are **wrapped greedily**. -/
theorem wrapped (h : Wraps width indent filling indent row others) (hwords : filling.IsWords) :
    Wrapped width indent filling.words ((row :: others).map fun other => other.contents.words) := by
  have hrows := h.isWords hwords
  refine ⟨?_, ?_, ?_, ?_⟩
  · rw [← List.flatMap_def, h.flatMap_words]
  · rw [List.forall_mem_map]
    exact fun other hother => (hrows other hother).contents.words_ne_nil
  · rw [List.forall_mem_map]
    intro other hother front word hprefix hfront
    have hkept : other.contents.separators ≠ [] := by
      intro hnone
      have hlength := hprefix.length_le
      rw [(hrows other hother).contents.length_words hnone, List.length_append,
        List.length_singleton]
        at hlength
      exact hfront (List.length_eq_zero_iff.mp (by omega))
    have hline := h.width_le_of_mem hother (hrows other hother).contents.eq_space hkept
    rw [(hrows other hother).width_eq] at hline
    exact (Nat.add_le_add_left (Text.lineWidth_le_of_isInfix hprefix.isInfix) indent).trans hline
  · rw [List.isChain_map]
    refine (List.isChain_cons.mpr h.isChain).imp_of_mem_imp fun a b ha hb hends word hword => ?_
    obtain ⟨stop, hstop, hstopped⟩ := hends
    rw [(hrows a ha).stop stop hstop, Separator.isKept, decide_eq_false_iff_not,
      (hrows b hb).reach_eq word hword, (hrows a ha).contents.width_eq] at hstopped
    rw [Text.lineWidth_append_singleton (hrows a ha).contents.words_ne_nil]
    omega

end Wraps

/-! ## Words on one line -/

namespace IsWords

variable {filling : Filling}

theorem anyWillBreak_parts (h : filling.IsWords) : Doc.anyWillBreak filling.parts = false := by
  induction h with
  | last => rfl
  | cons s h ih => exact ih

theorem length_parts (h : filling.IsWords) : filling.parts.length % 2 = 1 := by
  induction h with
  | last => rfl
  | cons s h ih =>
    rw [parts, List.length_cons, List.length_cons]
    omega

theorem width_flatTexts (h : filling.IsWords) :
    ((Doc.allFlatTexts filling.parts).map Text.width).sum = lineWidth filling.words := by
  rw [← h.width_eq]
  induction h with
  | last s => rfl
  | @cons s later h ih =>
    change Text.width s + (1 + ((Doc.allFlatTexts later.parts).map Text.width).sum) = _
    rw [ih, width, Nat.add_assoc]
    rfl

theorem chars_flatTexts (h : filling.IsWords) :
    (Doc.allFlatTexts filling.parts).flatMap String.toList = lineChars filling.words := by
  rw [← h.chars_pieces {}]
  induction h with
  | last s => rfl
  | @cons s later h ih =>
    change s.toList ++ (' ' :: (Doc.allFlatTexts later.parts).flatMap String.toList) = _
    rw [ih]
    rfl

end IsWords

end Filling

/-! ## Between two tags -/

/-- A line break in front of rows and between them stands **in front of each**. -/
theorem Piece.cons_intercalate (piece : Piece) {rows : List (List Piece)} (hne : rows ≠ []) :
    piece :: [piece].intercalate rows = rows.flatMap (piece :: ·) := by
  induction rows with
  | nil => exact absurd rfl hne
  | cons row rows ih =>
    rcases rows with _ | ⟨next, rows⟩
    · simp
    · rw [List.intercalate_cons_cons, List.flatMap_cons, ← ih (List.cons_ne_nil next rows)]
      simp

/-- The characters of lines, each indented one level **after a line break**. -/
def Text.indentedLines (o : LayoutOptions) (lines : List (List String)) : List Char :=
  lines.flatMap fun line => o.lineBreak.chars ++ Piece.levels o 1 ++ lineChars line

/-- **Words between two tags**: on one line if all of it is within the width, and otherwise wrapped
greedily in lines that are indented one level; of these none is too wide but those of one word, and
there are as few as possible. -/
structure Text.SetBetween (o : LayoutOptions) (opening closing words : List String)
    (output : List Char) : Prop where
  onOneLine (h : (opening.map width).sum + lineWidth words + (closing.map width).sum ≤
    o.printWidth) :
    output = opening.flatMap String.toList ++ lineChars words ++ closing.flatMap String.toList
  onLines (h : o.printWidth < (opening.map width).sum + lineWidth words + (closing.map width).sum) :
    ∃ lines, Wrapped o.printWidth o.indentWidth words lines ∧
      Within o.printWidth o.indentWidth lines ∧
      (∀ others : List (List String), others.flatten = words →
        Within o.printWidth o.indentWidth others → lines.length ≤ others.length) ∧
      output = opening.flatMap String.toList ++ indentedLines o lines ++ o.lineBreak.chars ++
        closing.flatMap String.toList

namespace Part

theorem forall_mem_wordsLine {P : Part → Prop} (hline : P (.line .orSpace))
    (hword : ∀ w, P (.word w)) (ws : List String) : ∀ part ∈ wordsLine ws, P part := by
  induction ws with
  | nil => exact nofun
  | cons w ws ih =>
    rcases ws with _ | ⟨next, ws⟩
    · exact List.forall_mem_singleton.mpr (hword w)
    · rw [wordsLine, List.map_cons, List.map_cons, List.intersperse_cons_cons]
      exact List.forall_mem_cons.mpr ⟨hword w, List.forall_mem_cons.mpr ⟨hline, ih⟩⟩

/-- On lines of their own **words are themselves**, and nothing makes them break. -/
theorem multilineDocs_wordsLine (style : SpaceStyle) (ws : List String) :
    multilineDocs style (wordsLine ws) =
      (wordsLine ws).map fun part => (part.doc style.doc, false) := by
  have hafter (beforeThat before : Option Part) (parts : List Part)
      (h : ∀ part ∈ parts, ∀ (beforeThat before : Option Part) (isLast : Bool),
        multilineDoc style beforeThat before part isLast = (part.doc style.doc, false)) :
      multilineDocsAfter style beforeThat before parts =
        parts.map fun part => (part.doc style.doc, false) := by
    induction parts generalizing beforeThat before with
    | nil => rfl
    | cons part parts ih =>
      obtain ⟨hpart, hparts⟩ := List.forall_mem_cons.mp h
      rw [multilineDocsAfter, hpart, ih _ _ hparts, List.map_cons]
  exact hafter none none _ (forall_mem_wordsLine (fun _ _ _ => rfl) (fun _ _ _ _ => rfl) ws)

end Part

namespace Shell

/-- The tags of a shell take **one line**. -/
structure HasLinelessTags (shell : Shell) : Prop where
  opening : shell.opening.isLineless = true
  closing : shell.closingDoc.isLineless = true
  willBreak_opening : shell.opening.willBreak = false
  willBreak_closing : shell.closingDoc.willBreak = false

/-- Words between the tags, **on one line or in lines**. -/
def wordsDoc (shell : Shell) (filling : Filling) : Doc :=
  .conditional [shell.onOneLine (.concat filling.parts), shell.multiline (.fill filling.parts)]

variable {shell : Shell}

/-- A shell around words offers them **on one line**, and as a fill. -/
theorem around_words (o : LanguageOptions) (htags : shell.HasLinelessTags)
    (hattributes : shell.hasManyAttributes = false) {raw : String}
    {filling : Filling} (hwords : filling.IsWords)
    (harrange : Part.arrange shell.isLocalized true [.text raw] = Part.wordsLine filling.words)
    (hmeaning : Text.isMeaningful raw = true) :
    shell.around o false [.text raw] = shell.wordsDoc filling := by
  have hdocs :
      (Part.multilineDocs (SpaceStyle.of o false) (Part.wordsLine filling.words)).map Prod.fst =
        filling.parts := by
    rw [Part.multilineDocs_wordsLine, List.map_map, hwords.parts_eq (SpaceStyle.of o false).doc]
    rfl
  have hforced : (Part.multilineDocs (SpaceStyle.of o false)
      (Part.wordsLine filling.words)).any Prod.snd = false := by
    rw [Part.multilineDocs_wordsLine, List.any_map]
    simp
  have hfilled : Doc.filled filling.parts = .fill filling.parts := by
    rw [Doc.filled, hwords.length_parts]
    rfl
  have htext : [Child.text raw].any Child.isMeaningfulText = true := by
    simpa [Child.isMeaningfulText] using hmeaning
  rw [around, htext, harrange]
  simp only [mustBreak, hforced, htags.willBreak_opening, hattributes, content, hdocs, hfilled,
    Part.flatDoc, ← hwords.parts_eq]
  rfl

section Set

open Doc (resolve nextIsBreak certainBreak)

variable {filling : Filling}

/-- On lines of its own a content that is no line stands **between the tags, indented**. -/
theorem resolve_multiline {flush : Doc.Flush} {indentWidth : Nat} {content : Doc}
    {opening body closing : Layout} (hclosing : shell.closingDoc.isLineless = true)
    (hcontent : nextIsBreak .broken [content] = false)
    (hopening' : resolve flush indentWidth .broken false shell.opening [] = ⟨opening, []⟩)
    (hbody : resolve flush indentWidth .broken false content [] = ⟨body, []⟩)
    (hclosing' : resolve flush indentWidth .broken false shell.closingDoc [] = ⟨closing, []⟩) :
    resolve flush indentWidth .broken false (shell.multiline content) [] =
      ⟨.seq opening (.seq (.nest indentWidth (.seq .newline (.seq body .nil)))
        (.seq .newline (.seq closing .nil))), []⟩ := by
  have hnone : nextIsBreak .broken [] = false := rfl
  have hbreak : certainBreak flush false [] = ⟨.newline, []⟩ := rfl
  have hbehind : Doc.line .hard ++ content = .concat [.line .hard, content] := rfl
  have hinside : resolve flush indentWidth .broken false (Doc.line .hard ++ content) [] =
      ⟨.seq .newline (.seq body .nil), []⟩ := by
    simp only [hbehind, resolve, Doc.resolveAll, Doc.resolveLine, hcontent, hbreak, hnone, hbody]
  have hbreaks : (Doc.concat [shell.opening, .indent (Doc.line .hard ++ content), .line .hard,
      shell.closingDoc]).willBreak = true := by
    rw [Doc.willBreak_concat]
    simp [Doc.willBreak]
  -- neither line break is the break of an empty line: the content and the closing tag are no lines
  have hindented : nextIsBreak .broken
      [.indent (Doc.line .hard ++ content), .line .hard, shell.closingDoc] = false := rfl
  have hend : nextIsBreak .broken [shell.closingDoc] = false := by
    rw [nextIsBreak, List.find?_singleton]
    split_ifs
    · cases hdoc : shell.closingDoc with
      | line =>
        rw [hdoc] at hclosing
        cases hclosing
      | _ => rfl
    · rfl
  simp only [multiline, Doc.grouped, resolve, hbreaks, Bool.or_true, Doc.innerState, if_true,
    Doc.resolveAll, hindented, hopening', hinside, hend, Doc.resolveLine, hbreak, hnone, hclosing',
    Doc.inGroup]

/-- Between the tags the fill is set **as its rows**, each on a line of its own. -/
theorem exists_lines (o : LayoutOptions) (hindent : 0 < o.indentWidth) (hwords : filling.IsWords)
    {opening closing : Layout} {cs ds : List Char}
    (hopens : ∀ rest, (opening.set o.printWidth .broken 0 rest 0).flatMap (Piece.chars o) = cs)
    (hcloses : ∀ rest column,
      (closing.set o.printWidth .broken 0 rest column).flatMap (Piece.chars o) = ds) :
    ∃ lines, Wrapped o.printWidth o.indentWidth filling.words lines ∧
      ((Layout.seq opening (.seq (.nest o.indentWidth (.seq .newline (.seq filling.layout .nil)))
        (.seq .newline (.seq closing .nil)))).pieces o.printWidth).flatMap (Piece.chars o) =
        cs ++ Text.indentedLines o lines ++ o.lineBreak.chars ++ ds := by
  obtain ⟨row, others, hwraps⟩ :=
    Filling.exists_wraps o.printWidth o.indentWidth filling o.indentWidth
  refine ⟨_, hwraps.wrapped hwords, ?_⟩
  have hrows (rest : Layout.Rest)
      (hrest : ∀ column ≤ o.printWidth, (Layout.outlookRest o.printWidth rest column).fits = true) :
      Piece.chars o (.newline o.indentWidth) ++
          (filling.layout.set o.printWidth .broken o.indentWidth rest o.indentWidth).flatMap
            (Piece.chars o) =
        Text.indentedLines o ((row :: others).map fun other => other.contents.words) := by
    have hlevel : Piece.indentation o o.indentWidth = Piece.levels o 1 := by
      rw [← Piece.indentation_mul hindent, Nat.one_mul]
    rw [hwraps.set hrest, ← List.flatMap_cons, Piece.cons_intercalate _ (by simp),
      List.flatMap_assoc, List.flatMap_map, Text.indentedLines, List.flatMap_map]
    refine List.flatMap_congr fun other hother => ?_
    rw [List.flatMap_cons, (hwraps.isWords hwords other hother).chars_pieces, Piece.chars, hlevel]
  simp only [Layout.pieces, Layout.set, Nat.zero_add, List.flatMap_append, hopens, hcloses,
    Piece.columnAfterAll_cons, Piece.columnAfterAll_nil, Piece.columnAfter]
  -- behind the fill there is a line break, so nothing after it is looked at
  rw [← hrows [(.broken, .nil), (.broken, .seq .newline (.seq closing .nil))] fun column hcolumn =>
    Outlook.fits_upTo_andThen.mpr ⟨hcolumn, rfl⟩]
  simp [Piece.chars]

/-- The words are **tried on one line**, and set in lines if they do not stay within the width. -/
theorem exists_layout_wordsDoc (o : LayoutOptions) (hindent : 0 < o.indentWidth)
    (htags : shell.HasLinelessTags) (hwords : filling.IsWords) :
    ∃ attempt fallback : Layout,
      (shell.wordsDoc filling).layout o.indentWidth = .firstFit attempt fallback ∧
      (∀ rest, attempt.set o.printWidth .broken 0 rest 0 =
        (shell.opening.flatTexts ++ Doc.allFlatTexts filling.parts ++
          shell.closingDoc.flatTexts).map .text) ∧
      ∃ lines, Wrapped o.printWidth o.indentWidth filling.words lines ∧
        (fallback.pieces o.printWidth).flatMap (Piece.chars o) =
          shell.opening.ownText ++ Text.indentedLines o lines ++ o.lineBreak.chars ++
            shell.closingDoc.ownText := by
  let flush := Doc.flushAt o.indentWidth (shell.wordsDoc filling).suffixDepth
  obtain ⟨opening, hopening, hopens⟩ :=
    Doc.exists_resolve_of_isLineless htags.opening flush o.indentWidth .broken false
  obtain ⟨closing, hclosing, hcloses⟩ :=
    Doc.exists_resolve_of_isLineless htags.closing flush o.indentWidth .broken false
  have hfill : resolve flush o.indentWidth .broken false (.fill filling.parts) [] =
      ⟨filling.layout, []⟩ := Filling.fillFromContent_parts ..
  have hfallback :
      Doc.resolveVariants flush o.indentWidth [shell.multiline (.fill filling.parts)] [] = _ :=
    resolve_multiline htags.closing rfl hopening hfill hclosing
  have hflat : (shell.onOneLine (.concat filling.parts)).willBreak = false := by
    simp [onOneLine, Doc.grouped, Doc.willBreak, Doc.anyWillBreak, htags.willBreak_opening,
      htags.willBreak_closing, hwords.anyWillBreak_parts]
  have htried := Doc.isTexts_resolve_flat flush o.indentWidth false _ hflat
  obtain ⟨lines, hlines, hset⟩ := exists_lines o hindent hwords (hopens o .broken 0 · 0)
    (hcloses o .broken 0)
  refine ⟨(resolve flush o.indentWidth .flat false (shell.onOneLine (.concat filling.parts))
    []).layout, _, ?_, fun rest => ?_, lines, hlines, hset⟩
  · have hresolve : resolve flush o.indentWidth .broken false (shell.wordsDoc filling) [] =
        Doc.resolveVariants flush o.indentWidth [shell.onOneLine (.concat filling.parts),
          shell.multiline (.fill filling.parts)] [] := rfl
    rw [Doc.layout, hresolve, Doc.resolveVariants, hfallback, hflat]
    simp [htried.pending]
  · rw [htried.set, List.append_assoc]
    simp [onOneLine, Doc.grouped, Doc.flatTexts, Doc.allFlatTexts]

/-- **Words are set between two tags**: on one line if all of it is within the width, and
otherwise in lines. -/
theorem exists_typeset_words (o : LayoutOptions) (hindent : 0 < o.indentWidth)
    (htags : shell.HasLinelessTags) (hwords : filling.IsWords) :
    ∃ output, (shell.wordsDoc filling).typeset o = .ok output ∧
      Text.SetBetween o shell.opening.flatTexts shell.closingDoc.flatTexts filling.words
        output.toList := by
  obtain ⟨attempt, fallback, hlayout, htried, lines, hlines, hset⟩ :=
    exists_layout_wordsDoc o hindent htags hwords
  refine ⟨_, by rw [Doc.typeset, if_neg hindent.ne'], ?_⟩
  have hne :
      shell.opening.flatTexts ++ Doc.allFlatTexts filling.parts ++ shell.closingDoc.flatTexts ≠
        [] := by
    cases hwords <;> simp [Filling.parts, Doc.allFlatTexts, Doc.flatTexts]
  have htotal : ((shell.opening.flatTexts ++ Doc.allFlatTexts filling.parts ++
        shell.closingDoc.flatTexts).map Text.width).sum =
      (shell.opening.flatTexts.map Text.width).sum + lineWidth filling.words +
        (shell.closingDoc.flatTexts.map Text.width).sum := by
    rw [List.map_append, List.map_append, List.sum_append, List.sum_append, hwords.width_flatTexts]
  have hopening := Doc.flatMap_flatTexts_of_isLineless _ htags.opening
  have hclosing := Doc.flatMap_flatTexts_of_isLineless _ htags.closing
  rw [Piece.toList_write, Doc.pieces, hlayout, Layout.pieces, Layout.set, htried,
    Piece.staysWithin_texts _ _ hne, Nat.zero_add, htotal]
  constructor
  · intro hfits
    rw [if_pos (decide_eq_true hfits), ← hwords.chars_flatTexts, ← List.flatMap_append,
      ← List.flatMap_append, List.flatMap_map]
    rfl
  · intro hwide
    rw [if_neg (by simpa using hwide), hopening, hclosing]
    exact ⟨lines, hlines, hlines.within, fun others => hlines.length_le, hset⟩

end Set

end Shell

end Reflow
