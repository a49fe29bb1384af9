import Reflow.Proofs.Markup.SetOut

/-!
# Proofs/Markup/Written — children read as they are written

The lexemes of children, as they are written, read as the children themselves (`Written.read_eq`).
No two texts are neighbours, so two words are next to each other only within a text, and there a
space stands between them.
-/

namespace Reflow

open Text (IsBlankRun IsWord Joined)
open Lexeme (push startsBlank IsOwn Separated)

namespace Lexeme

/-! ## The lexemes of a text -/

/-- Lexemes that continue a text: they start with a word or with blanks. -/
def continuesText (lexemes : List Lexeme) : Bool := lexemes.head?.any isWord || startsBlank lexemes

theorem push_append {lexemes rest : List Lexeme} (c : Char)
    (h : continuesText rest = false) : push c (lexemes ++ rest) = push c lexemes ++ rest := by
  rcases lexemes with _ | ⟨_ | _ | _ | _, lexemes⟩
  · rcases rest with _ | ⟨_ | _ | _ | _, rest⟩
    · by_cases hc : Text.isBlank c <;> simp [push, hc]
    · simp [continuesText, isWord] at h
    · simp [continuesText, startsBlank] at h
    · by_cases hc : Text.isBlank c <;> simp [push, hc]
    · by_cases hc : Text.isBlank c <;> simp [push, hc]
  all_goals by_cases hc : Text.isBlank c <;> simp [push, hc]

/-- A text stays apart from what does not continue it. -/
theorem ofText_append {rest : List Lexeme} (cs : List Char) (h : continuesText rest = false) :
    ofText cs ++ rest = cs.foldr push rest := by
  induction cs with
  | nil => rfl
  | cons c cs ih => rw [List.foldr_cons, ← ih, push_append c h, ofText, List.foldr_cons, ofText]

end Lexeme

namespace Content

/-- The marks of content, read as lexemes. -/
abbrev readMarks (marks : List (Mark Content)) : List (Mark Lexeme) := marks.map (Mark.map lexeme)

end Content

open Content (readMarks)

namespace Lexeme

/-- Blanks that are not between two words read as **the edge of a text**. -/
theorem marks_edge {run : List Char} (h : IsBlankRun run) {before : Bool} {rest : List Lexeme}
    (hrest : startsBlank rest = false) (hapart : (before && rest.head?.any isWord) = false) :
    marks before (run.foldr push rest) =
      readMarks (Whitespace.edgeMarks (Whitespace.ofEdge? run)) ++ marks false rest := by
  by_cases hne : run = []
  · subst hne
    exact marks_of_not_startsBlank before hrest
  rw [foldr_push_blanks h hne hrest, Whitespace.ofEdge?, if_neg (by simp [hne])]
  by_cases hbreak : '\n' ∈ run
  · have hrun : Whitespace.ofRun run ≠ .space := by
      rw [ne_eq, Whitespace.ofRun_eq_space_iff]
      simpa using hbreak
    rw [marks_break ⟨hbreak, h⟩ hapart]
    cases hkind : Whitespace.ofRun run with
    | space => exact absurd hkind hrun
    | lineBreak | blankLine => rfl
  · rw [marks, if_pos (by simp [hbreak]), (Whitespace.ofRun_eq_space_iff run).mpr hbreak]
    rfl

theorem head_isWord_edge {run : List Char} (h : IsBlankRun run) {rest : List Lexeme}
    (hrest : continuesText rest = false) : (run.foldr push rest).head?.any isWord = false := by
  obtain ⟨hword, hblank⟩ := Bool.or_eq_false_iff.mp hrest
  by_cases hne : run = []
  · subst hne
    exact hword
  · rw [foldr_push_blanks h hne hblank]
    rfl

theorem startsBlank_of_isWord {lexemes : List Lexeme} (h : lexemes.head?.any isWord = true) :
    startsBlank lexemes = false := by
  rcases lexemes with _ | ⟨_ | _ | _ | _, _⟩ <;> simp_all [isWord, startsBlank]

/-- Joined words read as words with a space between any two. -/
theorem marks_joined {ws : List String} {cs : List Char} (h : Joined ws cs) {rest : List Lexeme}
    (hrest : rest.head?.any isWord = false) :
    (cs.foldr push rest).head?.any isWord = true ∧ ∀ before,
      marks before (cs.foldr push rest) =
        readMarks ((ws.map fun word => Mark.item (Content.word word)).intersperse .space) ++
          marks true rest := by
  induction h with
  | single h =>
    rw [foldr_push_word h hrest]
    exact ⟨rfl, fun _ => rfl⟩
  | @cons word words run cs h blank apart tail ih =>
    obtain ⟨hword, hmarks⟩ := ih
    have hblank := startsBlank_of_isWord hword
    rw [List.append_assoc, List.foldr_append, List.foldr_append,
      foldr_push_blanks blank apart hblank, foldr_push_word h rfl]
    refine ⟨rfl, fun before => ?_⟩
    obtain ⟨next, others, rfl⟩ := List.exists_cons_of_ne_nil tail.ne_nil
    rw [marks, marks, if_pos (by simp [hword]), hmarks]
    rfl

/-- A **text** reads as its words and what stands at its edges. -/
theorem marks_ofText {raw : String} {rest : List Lexeme} (hne : raw ≠ "")
    (h : continuesText rest = false) :
    marks false (ofText raw.toList ++ rest) =
      readMarks (TextContent.ofText raw).marks ++ marks false rest := by
  obtain ⟨hword, hblank⟩ := Bool.or_eq_false_iff.mp h
  rw [ofText_append _ h]
  obtain ⟨hrun, hof⟩ | ⟨leading, ws, inner, trailing, hraw, hl, ht, hjoined, hof⟩ :=
    TextContent.ofText_cases raw
  · have hedge := marks_edge hrun hblank (Bool.false_and (rest.head?.any isWord))
    rw [hedge, hof, Whitespace.ofEdge?, if_neg (by simpa using hne), TextContent.marks]
  · have htrailing := @marks_edge trailing ht true rest hblank (by simpa using hword)
    obtain ⟨hstarts, hinner⟩ := marks_joined hjoined (head_isWord_edge ht h)
    rw [hraw, List.foldr_append, List.foldr_append,
      marks_edge hl (startsBlank_of_isWord hstarts) (Bool.false_and _), hinner, htrailing, hof,
      TextContent.marks]
    simp [readMarks]

/-! ## Words are separated -/

/-- The words of a text are separated, and from what follows them. -/
theorem separated_words (ws : List String) {marks : List (Mark Lexeme)}
    (h : Separated (.ofMarks marks)) (hstart : ¬ StartsWord (.ofMarks marks)) :
    Separated (.ofMarks (readMarks ((ws.map fun word =>
      Mark.item (Content.word word)).intersperse .space) ++ marks)) := by
  induction ws with
  | nil => exact h
  | cons word ws ih =>
    rcases ws with _ | ⟨next, ws⟩
    · exact separated_consItem h fun _ => hstart
    · refine separated_consItem (separated_consSpace.mpr ih) fun _ => ?_
      exact not_startsWord_consSpace _

/-- What stands at the edge of a text is a space or nothing. -/
theorem readMarks_edgeMarks (run : Option Whitespace) :
    readMarks (Whitespace.edgeMarks run) = [] ∨
      readMarks (Whitespace.edgeMarks run) = [.space] := by
  rcases run with _ | _ | _ | _
  · exact .inl rfl
  · exact .inr rfl
  · exact .inl rfl
  · exact .inl rfl

theorem separated_edge (run : Option Whitespace) {marks : List (Mark Lexeme)}
    (h : Separated (.ofMarks marks)) :
    Separated (.ofMarks (readMarks (Whitespace.edgeMarks run) ++ marks)) := by
  obtain hrun | hrun := readMarks_edgeMarks run
  · rw [hrun]
    exact h
  · rw [hrun]
    exact separated_consSpace.mpr h

theorem not_startsWord_edge (run : Option Whitespace) {marks : List (Mark Lexeme)}
    (h : ¬ StartsWord (.ofMarks marks)) :
    ¬ StartsWord (.ofMarks (readMarks (Whitespace.edgeMarks run) ++ marks)) := by
  obtain hrun | hrun := readMarks_edgeMarks run
  · rw [hrun]
    exact h
  · rw [hrun]
    exact not_startsWord_consSpace _

theorem separated_text (content : TextContent) {marks : List (Mark Lexeme)}
    (h : Separated (.ofMarks marks)) (hstart : ¬ StartsWord (.ofMarks marks)) :
    Separated (.ofMarks (readMarks content.marks ++ marks)) := by
  rcases content with run | ⟨leading, ws, trailing⟩
  · exact separated_edge (some run) h
  · have hwords :=
      separated_words ws (separated_edge trailing h) (not_startsWord_edge trailing hstart)
    simpa [TextContent.marks, readMarks] using separated_edge leading hwords

end Lexeme

/-! ## Children -/

namespace Child

/-- **Children as they are written**, perhaps after a text: texts that are not empty, no two of them
next to each other, spaces that are spelled out, and children with texts of their own. -/
inductive Written : (afterText : Bool) → List Child → List Lexeme → Prop
  | nil (afterText : Bool) : Written afterText [] []
  | text {raw : String} {children : List Child} {lexemes : List Lexeme} (ne : raw ≠ "")
      (plain : ∀ c ∈ raw.toList, Lexeme.IsPlain c) (tail : Written true children lexemes) :
      Written false (text raw :: children) (Lexeme.ofText raw.toList ++ lexemes)
  | space {afterText : Bool} {children : List Child} {lexemes : List Lexeme}
      (tail : Written false children lexemes) :
      Written afterText (text " " :: children) (.spelled :: lexemes)
  | printed {afterText : Bool} {kind : ChildKind} {doc : Doc} {children : List Child}
      {lexemes : List Lexeme} (h : (Content.printed doc).IsReadable)
        (tail : Written false children lexemes) :
      Written afterText (printed kind doc :: children) (.child doc.ownText :: lexemes)

namespace Written

variable {afterText : Bool} {children : List Child} {lexemes : List Lexeme}

theorem continuesText_eq_false (h : Written true children lexemes) :
    Lexeme.continuesText lexemes = false := by
  rcases h with _ | _ | _ | _
  · rfl
  · rfl
  · rfl

/-- The lexemes have **the marks of the children**. -/
theorem marks_eq (h : Written afterText children lexemes) :
    Lexeme.marks false lexemes = readMarks (children.flatMap marks) := by
  induction h with
  | nil => rfl
  | @text raw children lexemes ne plain tail ih =>
    rw [Lexeme.marks_ofText ne tail.continuesText_eq_false, ih, List.flatMap_cons, marks]
    simp [readMarks]
  | space tail ih =>
    rw [Lexeme.marks, ih]
    rfl
  | printed h tail ih =>
    rw [Lexeme.marks, ih]
    rfl

theorem not_startsWord (h : Written true children lexemes) :
    ¬ Lexeme.StartsWord (Lexeme.read lexemes) := by
  rcases h with _ | _ | _ | _
  · simp [Lexeme.StartsWord, Lexeme.read, Lexeme.marks, Reading.nil]
  · exact Lexeme.not_startsWord_consSpace _
  · simp [Lexeme.StartsWord, Lexeme.read, Lexeme.marks, Reading.consItem, Lexeme.isWord]

/-- Two words are **next to each other** only with a space between them. -/
theorem separated (h : Written afterText children lexemes) : Separated (Lexeme.read lexemes) := by
  induction h with
  | nil => exact .nil
  | @text raw children lexemes ne plain tail ih =>
    rw [Lexeme.read, Lexeme.marks_ofText ne tail.continuesText_eq_false]
    exact Lexeme.separated_text _ ih tail.not_startsWord
  | space tail ih => exact Lexeme.separated_consSpace.mpr ih
  | printed h tail ih => exact Lexeme.separated_consItem ih (by simp [Lexeme.isWord])

/-- The children **read as their lexemes**. -/
theorem read_eq (h : Written afterText children lexemes) :
    (read children).map Content.lexeme = Lexeme.read lexemes := by
  rw [read, Reading.map_ofMarks, Lexeme.read, h.marks_eq]

theorem readable (h : Written afterText children lexemes) :
    ∀ content ∈ children.flatMap contents, content.IsReadable := by
  induction h with
  | nil => simp
  | @text raw _ _ _ plain _ ih =>
    rw [List.flatMap_cons, List.forall_mem_append]
    refine ⟨List.forall_mem_map.mpr fun word hword => ?_, ih⟩
    obtain ⟨hisWord, hsub⟩ := TextContent.forall_isWord_words raw word hword
    exact ⟨hisWord, fun c hc => plain c (hsub c hc)⟩
  | space _ ih => exact ih
  | printed h _ ih =>
    rw [List.flatMap_cons, List.forall_mem_append]
    exact ⟨List.forall_mem_singleton.mpr h, ih⟩

theorem suffixDepth_eq_zero (h : Written afterText children lexemes) :
    ∀ kind doc, Child.printed kind doc ∈ children → doc.suffixDepth = 0 := by
  intro kind doc hdoc
  induction h with
  | nil => simp at hdoc
  | text _ _ _ ih => exact ih (by simpa using hdoc)
  | space _ ih => exact ih (by simpa using hdoc)
  | printed h _ ih =>
    obtain heq | hdoc := List.mem_cons.mp hdoc
    · cases heq
      exact doc.suffixDepth_of_isLineless h.2
    · exact ih hdoc

end Written

end Child

/-- What a shell prints around children that are written out has a body **that
reads as they do**. -/
theorem Shell.read_body {o : LanguageOptions} {shell : Shell} {opening closing : List Char}
    {children : List Child} {lexemes : List Lexeme} (hw : Child.Written false children lexemes)
    (htags : shell.PrintsTags opening closing) {mode : Mode} {cs : List Char}
    (h : (shell.doc o false children).Prints mode cs) :
    ∃ body, cs = opening ++ (body ++ closing) ∧
      Lexeme.read (Lexeme.scan 0 (Lexeme.children lexemes) body) = Lexeme.read lexemes := by
  obtain ⟨body, rfl, hbody⟩ := prints_doc htags h
  obtain ⟨hparts, hread⟩ := Part.arrange_cases shell.isLocalized children
  have hlexemes : Part.readLexemes (Part.arrange shell.isLocalized
      (children.any Child.isMeaningfulText) children) = Lexeme.read lexemes := by
    rw [Part.readLexemes, hread, hw.read_eq]
  have hset := hbody.sets hparts
    (by rw [Part.filterMap_content?_arrange]; exact hw.readable)
      (by rw [hlexemes]; exact hw.separated)
  rw [hlexemes] at hset
  refine ⟨body, rfl, ?_⟩
  have hscan := hset.read_scan
  rwa [Lexeme.children_items_read] at hscan

end Reflow
