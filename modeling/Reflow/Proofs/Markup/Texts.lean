import Reflow.Proofs.Markup.SetOut

/-!
# Proofs/Markup/Texts — texts and spaces around one run of words

A text is laid out as its words with a space before or after them (`Part.ofWords`).  The same comes
of texts that hold the words in one piece, with blanks and spaces spelled out around it, and so a
text that has been set in lines is laid out as it was before (`Part.arrange_texts`).
-/

namespace Reflow.Part

open Text (IsBlankRun Joined)
open Piece (IsBreak)
open Lexeme (spelling)

/-- The words of a text, with a line between any two. -/
def wordsLine (ws : List String) : List Part := (ws.map word).intersperse (.line .orSpace)

/-- **Words**, with a space before or after them. -/
def ofWords (spaceBefore spaceAfter : Bool) (ws : List String) : List Part :=
  (if spaceBefore then [.empty, .space] else []) ++ wordsLine ws ++
    (if spaceAfter then [.space] else [])

/-! ## Blank texts -/

theorem ofText_of_isBlankRun {run : List Char} (h : IsBlankRun run) :
    TextContent.ofText (String.ofList run) = .blank (.ofRun run) := by
  have hstart : Text.trimStart run = [] := Text.trimStart_eq_nil_iff.mpr h
  rw [TextContent.ofText, String.toList_ofList, hstart]
  rfl

/-- A **line break** as a text leaves nothing, or an empty line. -/
theorem ofChild_of_isBreak (localized : Bool) {run : List Char} (h : IsBreak run)
    (next : Option Child) :
    ofChild localized (.text (String.ofList run)) next = [] ∨
      ofChild localized (.text (String.ofList run)) next = [.empty, .line .hard] := by
  have hspace : Whitespace.ofRun run ≠ .space := by
    rw [ne_eq, Whitespace.ofRun_eq_space_iff]
    exact fun hnone => hnone h.1
  rw [ofChild, ofText_of_isBlankRun h.2]
  cases hkind : Whitespace.ofRun run with
  | space => exact absurd hkind hspace
  | lineBreak => exact .inl rfl
  | blankLine => exact .inr rfl

/-- **Blanks on one line** are a space, and so is a space spelled out. -/
theorem ofChild_blank (localized : Bool) {raw : String} (h : TextContent.ofText raw = .blank .space)
    (next : Option Child) : ofChild localized (.text raw) next = [.empty, .space] := by
  rw [ofChild, h]
  rfl

theorem ofText_space : TextContent.ofText " " = .blank .space := rfl

/-- A line break in front of a space says nothing. -/
theorem foldr_break_space (localized : Bool) {run : List Char} (h : IsBreak run)
    (next : Option Child) (rest : List Part) :
    (ofChild localized (.text (String.ofList run)) next).foldr (mergeStep true)
      (.empty :: .space :: rest) = .empty :: .space :: rest := by
  obtain hrun | hrun := ofChild_of_isBreak localized h next
  · rw [hrun]
    rfl
  · rw [hrun]
    rfl

/-- No text, or one that is a **line break**. -/
inductive AtMostBreak : List Child → Prop
  | none : AtMostBreak []
  | some {run : List Char} (h : IsBreak run) : AtMostBreak [.text (String.ofList run)]

/-- A space before nothing, or before a line break at the end. -/
theorem merge_space (localized : Bool) {raw : String}
    (hraw : TextContent.ofText raw = .blank .space) {after : List Child} (h : AtMostBreak after) :
    merge true (ofChildren localized (.text raw :: after)) = [.empty, .space] := by
  rw [ofChildren, merge, List.foldr_append, ofChild_blank localized hraw]
  cases h with
  | none => rfl
  | some h =>
    rw [ofChildren, ofChildren, List.append_nil]
    obtain hrun | hrun := ofChild_of_isBreak localized h none
    · rw [List.head?_nil, hrun]
      rfl
    · rw [List.head?_nil, hrun]
      rfl

/-- Blanks on one line are laid out as **one space**, with or without line breaks around them. -/
theorem arrange_space (localized : Bool) {raw : String}
    (hraw : TextContent.ofText raw = .blank .space) {before after : List Child}
    (hb : AtMostBreak before) (ha : AtMostBreak after) :
    arrange localized true (before ++ .text raw :: after) = [.empty, .space] := by
  have hmerge := merge_space localized hraw ha
  have htrim : trim [.empty, .space] = [.empty, .space] := rfl
  cases hb with
  | none => rw [arrange, List.nil_append, hmerge, htrim]
  | some hb =>
    rw [arrange, List.singleton_append, ofChildren, merge, List.foldr_append, ← merge, hmerge,
      foldr_break_space localized hb, htrim]

/-! ## Words -/

theorem foldr_wordsLine {ws : List String} (hne : ws ≠ []) (rest : List Part) :
    (wordsLine ws).foldr (mergeStep true) rest = wordsLine ws ++ rest := by
  induction ws with
  | nil => exact absurd rfl hne
  | cons word ws ih =>
    rcases ws with _ | ⟨next, ws⟩
    · rfl
    · have htail := ih (by simp)
      rw [wordsLine, List.map_cons] at htail
      rw [wordsLine, List.map_cons, List.map_cons, List.intersperse_cons_cons, List.foldr_cons,
        List.foldr_cons, htail]
      rcases ws with _ | ⟨other, ws⟩ <;> rfl

theorem exists_wordsLine_eq_cons {ws : List String} (hne : ws ≠ []) :
    ∃ w rest, wordsLine ws = .word w :: rest := by
  obtain ⟨w, ws, rfl⟩ := List.exists_cons_of_ne_nil hne
  rcases ws with _ | ⟨next, ws⟩
  · exact ⟨w, [], rfl⟩
  · exact ⟨w, _, rfl⟩

theorem exists_wordsLine_eq_concat {ws : List String} (hne : ws ≠ []) :
    ∃ front w, wordsLine ws = front ++ [.word w] := by
  induction ws with
  | nil => exact absurd rfl hne
  | cons w ws ih =>
    rcases ws with _ | ⟨next, ws⟩
    · exact ⟨[], w, rfl⟩
    · obtain ⟨front, last, hfront⟩ := ih (by simp)
      refine ⟨.word w :: .line .orSpace :: front, last, ?_⟩
      rw [List.cons_append, List.cons_append, ← hfront]
      rfl

/-! ## What stands around the words -/

/-- Children **before** the text that holds the words, the blanks it starts with, and whether a
space is among them. -/
inductive Lead : (space : Bool) → List Child → List Char → Prop
  | edge {run : List Char} (h : IsBlankRun run) :
      Lead (decide (Whitespace.ofEdge? run = some .space)) [] run
  | spelled {run : List Char} (h : IsBlankRun run) : Lead true [.text " "] run
  | spelledApart {lead run : List Char} (hl : IsBreak lead) (h : IsBlankRun run) :
      Lead true [.text (String.ofList lead), .text " "] run

/-- Children **after** the text that holds the words, with the blanks it ends with. -/
inductive Trail : (space : Bool) → List Child → List Char → Prop
  | edge {run : List Char} (h : IsBlankRun run) :
      Trail (decide (Whitespace.ofEdge? run = some .space)) [] run
  | spelled {run later : List Char} (h : IsBlankRun run) (hl : IsBreak later) :
      Trail true [.text " ", .text (String.ofList later)] run

theorem Lead.isBlankRun {space : Bool} {before : List Child} {run : List Char}
    (h : Lead space before run) : IsBlankRun run := by
  rcases h with h | h | ⟨-, h⟩
  · exact h
  · exact h
  · exact h

theorem Trail.isBlankRun {space : Bool} {after : List Child} {run : List Char}
    (h : Trail space after run) : IsBlankRun run := by
  rcases h with h | ⟨h, -⟩
  · exact h
  · exact h

/-- What is merged **behind the words**: a space, or a separator that is trimmed. -/
def IsTail (space : Bool) (rest : List Part) : Prop :=
  if space then rest = [.space] else ∃ separator, rest = [separator] ∧
    separator.isLineOrEmpty = true

/-- What is merged **in front of the words**. -/
def IsHead (space : Bool) (front : List Part) : Prop :=
  if space then front = [.empty, .space]
  else front = [] ∨ front = [.empty, .line .hard] ∨ front = [.empty, .line .orNil]

theorem ofTrailing_edge (localized : Bool) (lastWord : String) (child : Child) (next : Option Child)
    (edge : Option Whitespace) :
    IsTail (decide (edge = some .space)) [ofTrailing localized lastWord child next edge] := by
  have hline {part : Part} (h : part = .empty ∨ part = .line .hard ∨ part = .line .orNil) :
      part.isLineOrEmpty = true := by
    obtain rfl | rfl | rfl := h <;> rfl
  rcases edge with _ | _ | _ | _
  · exact ⟨_, rfl, hline (separatorWithout_cases ..)⟩
  · rfl
  · exact ⟨_, rfl, hline (.inr (separatorForBreak_cases ..))⟩
  · exact ⟨_, rfl, hline (.inr (separatorForBreak_cases ..))⟩

theorem mergeStep_ofTrailing_space (localized : Bool) (lastWord : String) (child : Child)
    (next : Option Child) (edge : Option Whitespace) :
    mergeStep true (ofTrailing localized lastWord child next edge) [.empty, .space] = [.space] := by
  obtain h | h | h | h := ofTrailing_cases localized lastWord child next edge <;> rw [h] <;> rfl

theorem Trail.isTail {space : Bool} {after : List Child} {run : List Char}
    (h : Trail space after run) (localized : Bool) (lastWord : String) (child : Child) :
    IsTail space (mergeStep true
      (ofTrailing localized lastWord child after.head? (Whitespace.ofEdge? run))
      (merge true (ofChildren localized after))) := by
  rcases h with _ | ⟨_, hl⟩
  · rw [ofChildren, merge_nil, mergeStep_of_not_startsEmpty _ rfl]
    exact ofTrailing_edge ..
  · rw [merge_space localized ofText_space (.some hl), mergeStep_ofTrailing_space]
    rfl

theorem foldr_ofLeading (localized : Bool) (firstWord : String) (child : Child)
    (next : Option Child) (edge : Option Whitespace) (w : String) (rest : List Part) :
    ∃ front, IsHead (decide (edge = some .space)) front ∧
      (ofLeading localized firstWord child next edge).foldr (mergeStep true) (.word w :: rest) =
        front ++ .word w :: rest := by
  have hbreak : ∃ front, IsHead false front ∧
      [Part.empty, separatorForBreak localized firstWord child next].foldr (mergeStep true)
        (.word w :: rest) = front ++ .word w :: rest := by
    obtain h | h := separatorForBreak_cases localized firstWord child next
    · rw [h]
      exact ⟨[.empty, .line .hard], .inr (.inl rfl), rfl⟩
    · rw [h]
      exact ⟨[.empty, .line .orNil], .inr (.inr rfl), rfl⟩
  rcases edge with _ | _ | _ | _
  · exact ⟨[], .inl rfl, rfl⟩
  · exact ⟨[.empty, .space], rfl, rfl⟩
  · exact hbreak
  · exact hbreak

/-- A space in front takes in whatever stands before the words. -/
theorem foldr_space_head (localized : Bool) (next : Option Child) {space : Bool} {front : List Part}
    (h : IsHead space front) (w : String) (rest : List Part) :
    (ofChild localized (.text " ") next).foldr (mergeStep true) (front ++ .word w :: rest) =
      .empty :: .space :: .word w :: rest := by
  rw [ofChild_blank localized ofText_space]
  cases space with
  | true =>
    obtain rfl : front = [.empty, .space] := h
    rfl
  | false =>
    obtain rfl | rfl | rfl : front = [] ∨ front = [.empty, .line .hard] ∨
      front = [.empty, .line .orNil] := h <;> rfl

/-! ## Trimming -/

/-- The last part stays, or goes before the others do. -/
theorem trimEnd_concat (front : List Part) (last : Part) :
    trimEnd (front ++ [last]) = if last.isLineOrEmpty then trimEnd front else front ++ [last] := by
  rw [trimEnd, List.reverse_append, List.reverse_singleton, List.singleton_append,
    List.dropWhile_cons]
  split_ifs
  · rfl
  · rw [List.reverse_cons, List.reverse_reverse]

theorem trimEnd_tail {space : Bool} {tail : List Part} (h : IsTail space tail) (front : List Part)
    (w : String) :
    trimEnd (front ++ [.word w] ++ tail) =
      front ++ [.word w] ++ if space then [.space] else [] := by
  cases space with
  | true =>
    obtain rfl : tail = [.space] := h
    rw [trimEnd_concat, if_neg (by simp [isLineOrEmpty]), if_pos rfl]
  | false =>
    obtain ⟨separator, rfl, hseparator⟩ : ∃ separator, tail = [separator] ∧
      separator.isLineOrEmpty = true := h
    rw [trimEnd_concat, if_pos hseparator, trimEnd_concat, if_neg (by simp [isLineOrEmpty]),
      if_neg (by simp), List.append_nil]

theorem trimStart_word (w : String) (rest : List Part) :
    trimStart (.word w :: rest) = .word w :: rest := by
  rcases rest with _ | ⟨next, rest⟩
  · rfl
  · rw [trimStart, if_neg (by simp [isLineOrEmpty])]

theorem trimStart_head {space : Bool} {front : List Part} (h : IsHead space front) (w : String)
    (rest : List Part) :
    trimStart (front ++ .word w :: rest) =
      (if space then [.empty, .space] else []) ++ .word w :: rest := by
  cases space with
  | true =>
    obtain rfl : front = [.empty, .space] := h
    rfl
  | false =>
    obtain rfl | rfl | rfl : front = [] ∨ front = [.empty, .line .hard] ∨
      front = [.empty, .line .orNil] := h
    · exact trimStart_word w rest
    · exact trimStart_word w rest
    · exact trimStart_word w rest

/-- Merged parts around words are **trimmed to the words** and the spaces around them. -/
theorem trim_eq_ofWords {spaceBefore spaceAfter : Bool} {front tail : List Part}
    (hf : IsHead spaceBefore front) (ht : IsTail spaceAfter tail) {ws : List String}
    (hne : ws ≠ []) :
    trim (front ++ (wordsLine ws ++ tail)) = ofWords spaceBefore spaceAfter ws := by
  obtain ⟨line, last, hlast⟩ := exists_wordsLine_eq_concat hne
  obtain ⟨first, rest, hfirst⟩ := exists_wordsLine_eq_cons hne
  have hend := trimEnd_tail ht (front ++ line) last
  rw [List.append_assoc front, ← hlast, List.append_assoc, List.append_assoc] at hend
  rw [trim, hend, hfirst, List.cons_append, trimStart_head hf, ofWords, hfirst, List.append_assoc,
    List.cons_append]

/-! ## Arranging -/

/-- What is merged from a text **with words** and from what stands after it. -/
theorem exists_merge_words (localized : Bool) {spaceAfter : Bool} {after : List Child}
    {leading inner trailing : List Char} {ws : List String} (hl : IsBlankRun leading)
    (hjoined : Joined ws inner) (ht : Trail spaceAfter after trailing) :
    ∃ front tail, IsHead (decide (Whitespace.ofEdge? leading = some .space)) front ∧
      IsTail spaceAfter tail ∧
      merge true (ofChildren localized
        (.text (String.ofList (leading ++ inner ++ trailing)) :: after)) =
          front ++ (wordsLine ws ++ tail) := by
  set text := String.ofList (leading ++ inner ++ trailing) with htext
  have hof : TextContent.ofText text = .words (Whitespace.ofEdge? leading) ws
      (Whitespace.ofEdge? trailing) :=
    TextContent.ofText_of_joined (String.toList_ofList) hl ht.isBlankRun hjoined
  obtain ⟨w, line, hline⟩ := exists_wordsLine_eq_cons hjoined.ne_nil
  set tail := mergeStep true (ofTrailing localized (ws.getLastD "") (.text text) after.head?
    (Whitespace.ofEdge? trailing)) (merge true (ofChildren localized after)) with htail
  obtain ⟨front, hfront, hmerge⟩ := foldr_ofLeading localized (ws.headD "") (.text text) after.head?
    (Whitespace.ofEdge? leading) w (line ++ tail)
  refine ⟨front, tail, hfront, ht.isTail localized _ _, ?_⟩
  have hjoin := foldr_wordsLine hjoined.ne_nil tail
  rw [← List.cons_append, ← hline] at hmerge
  rw [ofChildren, merge, List.foldr_append, ofChild, hof, ofText, List.foldr_append,
    List.foldr_append, ← hmerge, ← hjoin]
  rfl

/-- Children before a text with words **only change what is in front** of these. -/
theorem Lead.exists_merge (localized : Bool) {space : Bool} {before after : List Child}
    {leading : List Char} (h : Lead space before leading) {child : Child} {front rest : List Part}
    {w : String} (hfront : IsHead (decide (Whitespace.ofEdge? leading = some .space)) front)
    (hmerge : merge true (ofChildren localized (child :: after)) = front ++ .word w :: rest) :
    ∃ front', IsHead space front' ∧
      merge true (ofChildren localized (before ++ child :: after)) = front' ++ .word w :: rest := by
  rcases h with _ | _ | ⟨hl, -⟩
  · exact ⟨front, hfront, hmerge⟩
  · refine ⟨[.empty, .space], rfl, ?_⟩
    rw [List.singleton_append, ofChildren, merge, List.foldr_append, ← merge, hmerge,
      foldr_space_head localized _ hfront]
    rfl
  · refine ⟨[.empty, .space], rfl, ?_⟩
    rw [List.cons_append, List.singleton_append, ofChildren, ofChildren, merge, List.foldr_append,
      List.foldr_append, ← merge, hmerge, foldr_space_head localized _ hfront,
      foldr_break_space localized hl]
    rfl

/-- A text with words is laid out as **its words**, and what stands before and after it only decides
about the spaces around them. -/
theorem arrange_texts (localized : Bool) {spaceBefore spaceAfter : Bool} {before after : List Child}
    {leading inner trailing : List Char} {ws : List String} (hl : Lead spaceBefore before leading)
    (hjoined : Joined ws inner) (ht : Trail spaceAfter after trailing) :
    arrange localized true
        (before ++ .text (String.ofList (leading ++ inner ++ trailing)) :: after) =
      ofWords spaceBefore spaceAfter ws := by
  obtain ⟨front, tail, hfront, htail, hmerge⟩ :=
    exists_merge_words localized hl.isBlankRun hjoined ht
  obtain ⟨w, line, hline⟩ := exists_wordsLine_eq_cons hjoined.ne_nil
  rw [hline, List.cons_append] at hmerge
  obtain ⟨front', hfront', hmerge'⟩ := hl.exists_merge localized hfront hmerge
  rw [← List.cons_append, ← hline] at hmerge'
  rw [arrange, hmerge']
  exact trim_eq_ofWords hfront' htail hjoined.ne_nil

/-! ## Printing

Between the tags, the words come out joined by blanks, with a gap before and after them that says
whether there is a space. -/

variable {q : Quote} {cs : List Char}

theorem exists_joined_of_run {ws : List String} (hws : ∀ w ∈ ws, Text.IsWord w.toList)
    (hne : ws ≠ []) {rest : List Part} (h : Run q (wordsLine ws ++ rest) cs) :
    ∃ inner ds, cs = inner ++ ds ∧ Joined ws inner ∧ Run q rest ds := by
  induction ws generalizing cs with
  | nil => exact absurd rfl hne
  | cons w ws ih =>
    obtain ⟨hw, hws⟩ := List.forall_mem_cons.mp hws
    rcases ws with _ | ⟨next, ws⟩
    · cases h with
      | @cons _ _ _ ds hx hy _ =>
        cases hx
        exact ⟨w.toList, ds, rfl, .single hw, hy⟩
    · rw [wordsLine, List.map_cons, List.map_cons, List.intersperse_cons_cons] at h
      cases h with
      | cons hx hy _ =>
        cases hx
        cases hy with
        | @cons _ _ run _ hx hy _ =>
          have hrun : IsBlankRun run ∧ run ≠ [] := by
            cases hx with
            | orSpace => exact ⟨by simp [IsBlankRun]; rfl, by simp⟩
            | «break» _ hbreak => exact ⟨hbreak.2, List.ne_nil_of_mem hbreak.1⟩
          obtain ⟨inner, ds, rfl, hjoined, hds⟩ := ih hws (by simp) hy
          exact ⟨w.toList ++ run ++ inner, ds, by simp, .cons hw hrun.1 hrun.2 hjoined, hds⟩

/-- What follows the words is **a gap**. -/
theorem gap_of_trail {spaceAfter : Bool} (h : Run q (if spaceAfter then [.space] else []) cs) :
    Lexeme.Gap q true spaceAfter false cs := by
  cases spaceAfter with
  | true => exact gap_of_lastSpace true h
  | false =>
    cases h with
    | done hend => exact .none hend rfl

/-- A **text is printed** as its words, joined, between two gaps. -/
theorem Body.exists_joined {spaceBefore spaceAfter : Bool} {ws : List String}
    (hws : ∀ w ∈ ws, Text.IsWord w.toList) (hne : ws ≠ [])
    (h : Body q (ofWords spaceBefore spaceAfter ws) cs) :
    ∃ lead inner tail, cs = lead ++ (inner ++ tail) ∧ Lexeme.Gap q false spaceBefore true lead ∧
      Joined ws inner ∧ Lexeme.Gap q true spaceAfter false tail := by
  obtain ⟨lead, ds, rfl, hrun, hlead⟩ : ∃ lead ds, cs = lead ++ ds ∧
      Run q (ofWords spaceBefore spaceAfter ws) ds ∧ (lead = [] ∨ IsBreak lead ∧
        (spaceBefore = true → ∃ later, ds = spelling q ++ later)) := by
    cases h with
    | onOneLine hrun => exact ⟨[], cs, rfl, hrun, .inl rfl⟩
    | @onLines lead ds hlead hrun hspace =>
      refine ⟨lead, ds, rfl, hrun, .inr ⟨hlead, ?_⟩⟩
      rintro rfl
      exact hspace rfl
  cases spaceBefore with
  | true =>
    obtain ⟨run, es, rfl, hes, hgap⟩ :=
      gap_of_lead hrun (hlead.imp_right fun ⟨hlead, hspace⟩ => ⟨hlead, hspace rfl⟩)
    obtain ⟨inner, tail, rfl, hjoined, htail⟩ := exists_joined_of_run hws hne hes
    exact ⟨lead ++ run, inner, tail, by simp, hgap true, hjoined, gap_of_trail htail⟩
  | false =>
    rw [ofWords, if_neg (by simp), List.nil_append] at hrun
    obtain ⟨inner, tail, rfl, hjoined, htail⟩ := exists_joined_of_run hws hne hrun
    exact ⟨lead, inner, tail, rfl, .none (hlead.imp_right And.left) rfl, hjoined,
      gap_of_trail htail⟩

/-- A **space alone** is printed as a gap. -/
theorem Body.gap (h : Body q [.empty, .space] cs) : Lexeme.Gap q false true false cs := by
  cases h with
  | onOneLine hrun => exact @gap_of_alone q cs [] hrun (.inl rfl)
  | onLines hlead hrun hspace => exact gap_of_alone hrun (.inr ⟨hlead, hspace rfl⟩)

end Reflow.Part
