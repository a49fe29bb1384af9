import Reflow.Text.Whitespace
import Mathlib.Data.List.TakeWhile

/-!
# Proofs/Text/Words — a text is its words and the blanks around them

Every text is blanks, or blanks around words that are joined by blanks (`TextContent.ofText_cases`),
and such a text has these words and these blanks at its edges (`TextContent.ofText_of_joined`).
-/

namespace Reflow

namespace Text

/-- A run of blanks, perhaps empty. -/
def IsBlankRun (run : List Char) : Prop := ∀ c ∈ run, isBlank c = true

/-- A **word**: not empty, and without blanks. -/
def IsWord (word : List Char) : Prop := word ≠ [] ∧ ∀ c ∈ word, isBlank c = false

/-- **Words joined by blanks**, with nothing around them. -/
inductive Joined : List String → List Char → Prop
  | single {word : String} (h : IsWord word.toList) : Joined [word] word.toList
  | cons {word : String} {words : List String} {run cs : List Char} (h : IsWord word.toList)
      (blank : IsBlankRun run) (apart : run ≠ []) (tail : Joined words cs) :
      Joined (word :: words) (word.toList ++ run ++ cs)

/-! ## Blanks at an edge -/

theorem IsBlankRun.append {xs ys : List Char} (hx : IsBlankRun xs) (hy : IsBlankRun ys) :
    IsBlankRun (xs ++ ys) := fun c hc => (List.mem_append.mp hc).elim (hx c) (hy c)

theorem leadingBlanks_append {run : List Char} (h : IsBlankRun run) (cs : List Char) :
    leadingBlanks (run ++ cs) = run ++ leadingBlanks cs :=
  List.takeWhile_append_of_pos h

theorem trimStart_append {run : List Char} (h : IsBlankRun run) (cs : List Char) :
    trimStart (run ++ cs) = trimStart cs :=
  List.dropWhile_append_of_pos h

theorem trimEnd_append {run : List Char} (h : IsBlankRun run) (cs : List Char) :
    trimEnd (cs ++ run) = trimEnd cs := by
  have hr : ∀ c ∈ run.reverse, isBlank c = true := fun c hc => h c (List.mem_reverse.mp hc)
  rw [trimEnd, List.reverse_append, List.dropWhile_append_of_pos hr, trimEnd]

theorem leadingBlanks_eq_nil {c : Char} {cs : List Char} (h : isBlank c = false) :
    leadingBlanks (c :: cs) = [] :=
  List.takeWhile_cons_of_neg (by simp [h])

theorem trimStart_eq_self {c : Char} {cs : List Char} (h : isBlank c = false) :
    trimStart (c :: cs) = c :: cs :=
  List.dropWhile_cons_of_neg (by simp [h])

theorem trimEnd_eq_self {c : Char} {cs : List Char} (h : isBlank c = false) :
    trimEnd (cs ++ [c]) = cs ++ [c] := by
  rw [trimEnd, List.reverse_append, List.reverse_singleton, List.singleton_append,
    List.dropWhile_cons_of_neg (by simp [h]), List.reverse_cons, List.reverse_reverse]

theorem isBlankRun_leadingBlanks (cs : List Char) : IsBlankRun (leadingBlanks cs) :=
  fun _ h => List.mem_takeWhile_imp h

theorem isBlankRun_trailingBlanks (cs : List Char) : IsBlankRun (trailingBlanks cs) :=
  fun _ h => List.mem_takeWhile_imp (List.mem_reverse.mp h)

/-- A run that is trimmed away was blanks to begin with. -/
theorem trimStart_eq_nil_iff {cs : List Char} : trimStart cs = [] ↔ IsBlankRun cs :=
  List.dropWhile_eq_nil_iff

/-- What trimming leaves starts with a character that is no blank. -/
theorem exists_trimStart_eq_cons {cs : List Char} (h : trimStart cs ≠ []) :
    ∃ c rest, trimStart cs = c :: rest ∧ isBlank c = false := by
  obtain ⟨c, rest, hc⟩ := List.exists_cons_of_ne_nil h
  have := List.head_dropWhile_not isBlank h
  exact ⟨c, rest, hc, by simpa [show List.dropWhile isBlank cs = c :: rest from hc] using this⟩

/-! ## Words, one after the other -/

theorem pieces_append {word : List Char} (h : ∀ c ∈ word, isBlank c = false) (cs : List Char) :
    pieces (word ++ cs) = (pieces cs).modifyHead (word ++ ·) := by
  induction word with
  | nil => cases h : pieces cs <;> simp [h]
  | cons c word ih =>
    rw [List.cons_append, pieces, if_neg (by simp [h c]),
      ih fun d hd => h d (List.mem_cons_of_mem c hd), List.modifyHead_modifyHead]
    rfl

@[simp] theorem words_nil : words [] = [] := rfl

theorem words_cons_of_isBlank {c : Char} (h : isBlank c = true) (cs : List Char) :
    words (c :: cs) = words cs := by
  simp [words, pieces, h]

theorem words_append_of_isBlankRun {run : List Char} (h : IsBlankRun run) (cs : List Char) :
    words (run ++ cs) = words cs := by
  induction run with
  | nil => rfl
  | cons c run ih =>
    rw [List.cons_append, words_cons_of_isBlank (h c List.mem_cons_self),
      ih fun d hd => h d (List.mem_cons_of_mem c hd)]

/-- A word that ends here: at the end of the text, or before a blank. -/
theorem words_append_of_isWord {word cs : List Char} (h : IsWord word)
    (hcs : ∀ c ∈ cs.head?, isBlank c = true) :
    words (word ++ cs) = String.ofList word :: words cs := by
  have hword : (!word.isEmpty) = true := by simp [h.1]
  rw [words, pieces_append h.2]
  cases cs with
  | nil => simp [pieces, hword, words]
  | cons c cs =>
    have hc : isBlank c = true := hcs c rfl
    simp [pieces, hc, hword, words]

theorem words_of_isBlankRun {run : List Char} (h : IsBlankRun run) : words run = [] := by
  rw [← List.append_nil run, words_append_of_isBlankRun h, words_nil]

/-- **Joined words** are the words of the text they make, also with blanks behind. -/
theorem Joined.words_append {ws : List String} {cs trailing : List Char} (h : Joined ws cs)
    (ht : IsBlankRun trailing) : words (cs ++ trailing) = ws := by
  induction h with
  | single h =>
    rw [words_append_of_isWord h fun c hc => ht c (List.mem_of_mem_head? hc),
      words_of_isBlankRun ht, String.ofList_toList]
  | @cons word ws run cs h blank apart tail ih =>
    obtain ⟨c, run, rfl⟩ := List.exists_cons_of_ne_nil apart
    rw [List.append_assoc, List.append_assoc, words_append_of_isWord h,
      words_append_of_isBlankRun blank, ih, String.ofList_toList]
    simpa using blank c List.mem_cons_self

theorem Joined.words_eq {ws : List String} {cs : List Char} (h : Joined ws cs) : words cs = ws := by
  rw [← List.append_nil cs, h.words_append (by simp [IsBlankRun])]

theorem Joined.ne_nil {ws : List String} {cs : List Char} (h : Joined ws cs) : ws ≠ [] := by
  cases h <;> simp

/-- Joined words are **words of what they join**. -/
theorem Joined.forall_isWord {ws : List String} {cs : List Char} (h : Joined ws cs) :
    ∀ word ∈ ws, IsWord word.toList ∧ ∀ c ∈ word.toList, c ∈ cs := by
  induction h with
  | single h => simpa using h
  | cons h blank apart tail ih =>
    refine List.forall_mem_cons.mpr ⟨⟨h, fun c hc => by simp [hc]⟩, fun word hword => ?_⟩
    obtain ⟨hisWord, hsub⟩ := ih word hword
    exact ⟨hisWord, fun c hc => List.mem_append_right _ (hsub c hc)⟩

/-- Joined words start with a character of a word. -/
theorem Joined.exists_eq_cons {ws : List String} {cs : List Char} (h : Joined ws cs) :
    ∃ c rest, cs = c :: rest ∧ isBlank c = false := by
  have hword {word : String} (rest : List Char) (h : IsWord word.toList) :
      ∃ c rest', word.toList ++ rest = c :: rest' ∧ isBlank c = false := by
    obtain ⟨c, word', hc⟩ := List.exists_cons_of_ne_nil h.1
    exact ⟨c, word' ++ rest, by rw [hc, List.cons_append], h.2 c (by simp [hc])⟩
  cases h with
  | single h => simpa using hword [] h
  | cons h =>
    rw [List.append_assoc]
    exact hword _ h

/-- Joined words end with a character of a word. -/
theorem Joined.exists_eq_concat {ws : List String} {cs : List Char} (h : Joined ws cs) :
    ∃ rest c, cs = rest ++ [c] ∧ isBlank c = false := by
  induction h with
  | @single word h =>
    obtain ⟨rest, c, hc⟩ := (List.eq_nil_or_concat word.toList).resolve_left h.1
    rw [List.concat_eq_append] at hc
    exact ⟨rest, c, hc, h.2 c (by simp [hc])⟩
  | @cons word ws run cs h blank apart tail ih =>
    obtain ⟨rest, c, hc, hblank⟩ := ih
    exact ⟨word.toList ++ run ++ rest, c, by rw [hc, List.append_assoc _ rest], hblank⟩

/-- A text that starts with a character of a word is a word that ends there. -/
theorem exists_isWord_append {cs : List Char} (hfirst : ∀ c ∈ cs.head?, isBlank c = false)
    (hne : cs ≠ []) :
    ∃ word rest, cs = word ++ rest ∧ IsWord word ∧ ∀ c ∈ rest.head?, isBlank c = true := by
  refine ⟨cs.takeWhile fun c => !isBlank c, cs.dropWhile fun c => !isBlank c,
    List.takeWhile_append_dropWhile.symm, ⟨?_, ?_⟩, ?_⟩
  · obtain ⟨c, cs, rfl⟩ := List.exists_cons_of_ne_nil hne
    rw [List.takeWhile_cons_of_pos (by simpa using hfirst c rfl)]
    exact List.cons_ne_nil _ _
  · exact fun c hc => by simpa using List.mem_takeWhile_imp hc
  · intro c hc
    have := List.head?_dropWhile_not (fun c => !isBlank c) cs
    rw [Option.mem_def.mp hc] at this
    simpa using this

/-- Every text is blanks before a text that starts with a character of a word. -/
theorem exists_isBlankRun_append (cs : List Char) :
    ∃ run rest, cs = run ++ rest ∧ IsBlankRun run ∧ ∀ c ∈ rest.head?, isBlank c = false := by
  refine ⟨leadingBlanks cs, trimStart cs, (leadingBlanks_append_trimStart cs).symm,
    isBlankRun_leadingBlanks cs, fun c hc => ?_⟩
  have := List.head?_dropWhile_not isBlank cs
  rw [show List.dropWhile isBlank cs = trimStart cs from rfl, Option.mem_def.mp hc] at this
  simpa using this

/-- A text that starts and ends with characters of words **is joined words**. -/
theorem exists_joined {cs : List Char} (hfirst : ∀ c ∈ cs.head?, isBlank c = false)
    (hlast : ∀ c ∈ cs.getLast?, isBlank c = false) (hne : cs ≠ []) : ∃ ws, Joined ws cs := by
  -- by induction on the length: after the first word and the blanks behind it the rest is shorter
  induction hn : cs.length using Nat.strongRecOn generalizing cs with
  | ind n ih =>
    obtain ⟨word, rest, rfl, hword, hrest⟩ := exists_isWord_append hfirst hne
    obtain ⟨run, next, rfl, hrun, hnext⟩ := exists_isBlankRun_append rest
    rw [← @String.toList_ofList word] at hword ⊢
    by_cases hnil : next = []
    · subst hnil
      -- blanks behind the word would end the text
      obtain rfl | ⟨front, d, rfl⟩ := List.eq_nil_or_concat run
      · exact ⟨_, by simpa using Joined.single hword⟩
      · have hd : isBlank d = false := hlast d (by simp)
        simp [hrun d] at hd
    · have hrun_ne : run ≠ [] := by
        rintro rfl
        obtain ⟨c, next, rfl⟩ := List.exists_cons_of_ne_nil hnil
        have hc := hrest c rfl
        rw [hnext c rfl] at hc
        cases hc
      have hlen : next.length < n := by
        have := List.length_pos_iff.mpr hrun_ne
        simp only [List.length_append] at hn
        omega
      have hlast' : ∀ c ∈ next.getLast?, isBlank c = false := fun c hc => hlast c (by
        rw [List.getLast?_append, List.getLast?_append, Option.mem_def.mp hc]
        rfl)
      obtain ⟨ws, hws⟩ := ih next.length hlen hnext hlast' hnil rfl
      exact ⟨_, by simpa using Joined.cons hword hrun hrun_ne hws⟩

/-- A text that starts with a character of a word, **trimmed at its end**, is joined words. -/
theorem exists_joined_trimEnd {c : Char} (h : isBlank c = false) (rest : List Char) :
    ∃ ws, Joined ws (trimEnd (c :: rest)) := by
  have hsplit := trimEnd_append_trailingBlanks (c :: rest)
  have hne : trimEnd (c :: rest) ≠ [] := by
    intro hnil
    rw [hnil, List.nil_append] at hsplit
    have hc := isBlankRun_trailingBlanks (c :: rest) c (by simp [hsplit])
    rw [h] at hc
    cases hc
  refine exists_joined ?_ ?_ hne
  · -- trimming at the end leaves the first character in place
    intro d hd
    obtain ⟨e, tail, he⟩ := List.exists_cons_of_ne_nil hne
    rw [he, List.cons_append, List.cons.injEq] at hsplit
    rw [he, List.head?_cons, Option.mem_some_iff] at hd
    rw [← hd, hsplit.1, h]
  · intro d hd
    rw [trimEnd, List.getLast?_reverse] at hd
    have := List.head?_dropWhile_not isBlank (c :: rest).reverse
    rw [Option.mem_def.mp hd] at this
    simpa using this

end Text

namespace Whitespace

/-- A run is a **space** exactly if it has no line feed. -/
theorem ofRun_eq_space_iff (run : List Char) : ofRun run = .space ↔ '\n' ∉ run := by
  rw [← List.count_eq_zero, ofRun]
  split
  · next h => simp [h]
  · next h => simp [h]
  · next h _ => simpa using h

theorem spansLines_eq_true_iff (whitespace : Whitespace) :
    whitespace.spansLines = true ↔ whitespace ≠ .space := by
  cases whitespace <;> simp [spansLines]

end Whitespace

namespace TextContent

open Text

/-- **Joined words with blanks around them** are classified as these words, with these
blanks at the edges. -/
theorem ofText_of_joined {raw : String} {leading inner trailing : List Char} {ws : List String}
    (hraw : raw.toList = leading ++ inner ++ trailing) (hl : IsBlankRun leading)
    (ht : IsBlankRun trailing) (h : Joined ws inner) :
    ofText raw = .words (Whitespace.ofEdge? leading) ws (Whitespace.ofEdge? trailing) := by
  obtain ⟨c, rest, hc, hblank⟩ := h.exists_eq_cons
  obtain ⟨front, d, hd, hblank'⟩ := h.exists_eq_concat
  have hstart : trimStart raw.toList = inner ++ trailing := by
    rw [hraw, List.append_assoc, trimStart_append hl, hc, List.cons_append,
      trimStart_eq_self hblank]
  have hleading : leadingBlanks raw.toList = leading := by
    rw [hraw, List.append_assoc, leadingBlanks_append hl, hc, List.cons_append,
      leadingBlanks_eq_nil hblank, List.append_nil]
  have hend : trimEnd (inner ++ trailing) = inner := by
    rw [trimEnd_append ht, hd, trimEnd_eq_self hblank']
  have htrailing : trailingBlanks (inner ++ trailing) = trailing := by
    have := trimEnd_append_trailingBlanks (inner ++ trailing)
    rw [hend] at this
    exact List.append_cancel_left this
  rw [ofText, hstart, hleading, hend, htrailing, h.words_eq,
    if_neg (by simp [hc])]

/-- A text is **blanks, or words** joined by blanks with blanks around them. -/
theorem ofText_cases (raw : String) :
    (IsBlankRun raw.toList ∧ ofText raw = .blank (.ofRun raw.toList)) ∨
    ∃ leading ws inner trailing, raw.toList = leading ++ inner ++ trailing ∧ IsBlankRun leading ∧
      IsBlankRun trailing ∧ Joined ws inner ∧
      ofText raw = .words (Whitespace.ofEdge? leading) ws (Whitespace.ofEdge? trailing) := by
  by_cases hnil : trimStart raw.toList = []
  · left
    exact ⟨trimStart_eq_nil_iff.mp hnil, by rw [ofText, hnil]; rfl⟩
  · right
    obtain ⟨c, rest, hc, hblank⟩ := exists_trimStart_eq_cons hnil
    obtain ⟨ws, hjoined⟩ := exists_joined_trimEnd hblank rest
    have hsplit : raw.toList =
        leadingBlanks raw.toList ++ trimEnd (c :: rest) ++ trailingBlanks (c :: rest) := by
      rw [List.append_assoc, trimEnd_append_trailingBlanks, ← hc, leadingBlanks_append_trimStart]
    have hl := isBlankRun_leadingBlanks raw.toList
    have ht := isBlankRun_trailingBlanks (c :: rest)
    exact ⟨_, _, _, _, hsplit, hl, ht, hjoined, ofText_of_joined hsplit hl ht hjoined⟩

/-- The words a text is classified with are its words. -/
theorem words_eq_of_ofText {raw : String} {leading trailing : Option Whitespace}
    {ws : List String} (h : ofText raw = .words leading ws trailing) :
    Text.words raw.toList = ws := by
  obtain ⟨-, hraw⟩ | ⟨front, ws', inner, back, hraw, hf, hb, hjoined, hof⟩ := ofText_cases raw
  · simp [h] at hraw
  · rw [h, TextContent.words.injEq] at hof
    rw [hraw, List.append_assoc, words_append_of_isBlankRun hf, hjoined.words_append hb, hof.2.1]

/-- There is **a word** in them. -/
theorem words_ne_nil {raw : String} {leading trailing : Option Whitespace} {ws : List String}
    (h : ofText raw = .words leading ws trailing) : ws ≠ [] := by
  obtain ⟨-, hraw⟩ | ⟨_, _, _, _, _, _, _, hjoined, hof⟩ := ofText_cases raw
  · simp [h] at hraw
  · rw [h, TextContent.words.injEq] at hof
    exact hof.2.1 ▸ hjoined.ne_nil

/-- The **words of a text** are words of its characters. -/
theorem forall_isWord_words (raw : String) :
    ∀ word ∈ Text.words raw.toList, IsWord word.toList ∧ ∀ c ∈ word.toList, c ∈ raw.toList := by
  obtain ⟨hblank, -⟩ | ⟨leading, ws, inner, trailing, hraw, hl, ht, hjoined, -⟩ := ofText_cases raw
  · simp [words_of_isBlankRun hblank]
  · rw [hraw, List.append_assoc, words_append_of_isBlankRun hl, hjoined.words_append ht]
    intro word hword
    obtain ⟨hisWord, hsub⟩ := hjoined.forall_isWord word hword
    exact ⟨hisWord, fun c hc => by simp [hsub c hc]⟩

/-- A text of nothing but blanks has no words. -/
theorem words_eq_nil_of_ofText {raw : String} {run : Whitespace} (h : ofText raw = .blank run) :
    Text.words raw.toList = [] := by
  obtain ⟨hblank, -⟩ | ⟨_, _, _, _, _, _, _, _, hof⟩ := ofText_cases raw
  · exact words_of_isBlankRun hblank
  · simp [h] at hof

/-- A text **does not count** exactly if it is blanks that span lines. -/
theorem isMeaningful_eq_false_iff (raw : String) :
    isMeaningful raw = false ↔ ∃ run, ofText raw = .blank run ∧ run.spansLines = true := by
  obtain ⟨hblank, hraw⟩ | ⟨leading, ws, inner, trailing, hraw, -, -, hjoined, hof⟩ :=
    ofText_cases raw
  · have hany : raw.toList.any (fun c => !isBlank c) = false :=
      List.any_eq_false.mpr fun c hc => by simp [hblank c hc]
    rw [isMeaningful, hany, hraw, Bool.false_or]
    simp only [TextContent.blank.injEq, exists_eq_left', Whitespace.spansLines_eq_true_iff, ne_eq,
      Whitespace.ofRun_eq_space_iff]
    simp
  · obtain ⟨c, rest, rfl, hc⟩ := hjoined.exists_eq_cons
    have hany : raw.toList.any (fun c => !isBlank c) = true :=
      List.any_eq_true.mpr ⟨c, by simp [hraw], by simp [hc]⟩
    simp [isMeaningful, hany, hof]

/-- A text **counts** if it is anything else. -/
theorem isMeaningful_of_ofText {raw : String} {content : TextContent} (hof : ofText raw = content)
    (h : ∀ run : Whitespace, run.spansLines = true → content ≠ .blank run) :
    isMeaningful raw = true := by
  by_contra hnone
  obtain ⟨run, hrun, hspans⟩ := (isMeaningful_eq_false_iff raw).mp (Bool.eq_false_iff.mpr hnone)
  exact h run hspans (hof.symm.trans hrun)

end TextContent

end Reflow
