import Mathlib.Data.List.Chain
import Reflow.Proofs.Text.Lexeme

/-!
# Proofs/Text/Unspaced — markup without its whitespace

Deleting blanks and spaces spelled out leaves what does not depend on where lines are broken
(`Text.unspaced`).  Texts with whitespace between them are unspaced one by one
(`SpacedOut.unspaced_eq`), as long as no space is spelled out across the seam of two of them: that
is what `Text.Meets` rules out.
-/

namespace Reflow

namespace Text

open Lexeme (spelling isSpelledAhead isSpelledAhead_iff not_spelling_isPrefix)

/-! ## Deleting whitespace -/

/-- A text **without its whitespace**: blanks and spaces spelled out, in either quote.  The first
`skip` characters belong to a space that has been found already. -/
def unspaced (skip : Nat) : List Char → List Char
  | [] => []
  | c :: cs =>
    match skip with
    | skip + 1 => unspaced skip cs
    | 0 =>
      if isSpelledAhead (c :: cs) then unspaced 4 cs
      else if isBlank c then unspaced 0 cs
      else c :: unspaced 0 cs

/-- **Whitespace**: blanks and spaces spelled out. -/
inductive IsGap : List Char → Prop
  | nil : IsGap []
  | blank {c : Char} {cs : List Char} (h : isBlank c = true) (tail : IsGap cs) : IsGap (c :: cs)
  | spelled (q : Quote) {cs : List Char} (tail : IsGap cs) : IsGap (spelling q ++ cs)

theorem IsGap.append {xs ys : List Char} (hx : IsGap xs) (hy : IsGap ys) : IsGap (xs ++ ys) := by
  induction hx with
  | nil => exact hy
  | blank h _ ih => exact .blank h ih
  | spelled q _ ih =>
    rw [List.append_assoc]
    exact .spelled q ih

theorem isGap_of_isBlankRun {run : List Char} (h : IsBlankRun run) : IsGap run := by
  induction run with
  | nil => exact .nil
  | cons c run ih =>
    obtain ⟨hc, hrun⟩ := List.forall_mem_cons.mp h
    exact .blank hc (ih hrun)

theorem unspaced_skip (xs ys : List Char) : unspaced xs.length (xs ++ ys) = unspaced 0 ys := by
  induction xs with
  | nil => rfl
  | cons x xs ih => rw [List.length_cons, List.cons_append, unspaced, ih]

theorem isSpelledAhead_eq_false {c : Char} (h : c ≠ '{') (cs : List Char) :
    isSpelledAhead (c :: cs) = false := by
  rw [← Bool.not_eq_true, isSpelledAhead_iff]
  intro ⟨q, hq⟩
  exact not_spelling_isPrefix h q cs hq

/-- Whitespace is deleted. -/
theorem unspaced_gap {gap : List Char} (h : IsGap gap) (cs : List Char) :
    unspaced 0 (gap ++ cs) = unspaced 0 cs := by
  induction h with
  | nil => rfl
  | @blank c gap h _ ih =>
    have hc : c ≠ '{' := by
      rintro rfl
      exact absurd h (by decide)
    rw [List.cons_append, unspaced, isSpelledAhead_eq_false hc, if_neg (by simp), if_pos h, ih]
  | @spelled q gap _ ih =>
    have hahead : isSpelledAhead (spelling q ++ (gap ++ cs)) = true :=
      (isSpelledAhead_iff _).mpr ⟨q, List.prefix_append _ _⟩
    rw [List.append_assoc]
    rw [spelling, List.cons_append] at hahead ⊢
    rw [unspaced, if_pos hahead, ← ih]
    exact unspaced_skip [q.char, ' ', q.char, '}'] (gap ++ cs)

/-! ## Seams -/

/-- No space is spelled out **across the seam** of two texts: one that starts in
the first is in it. -/
def Clear (xs ys : List Char) : Prop :=
  ∀ q s, s ≠ [] → s <:+ xs → spelling q <+: s ++ ys → spelling q <+: s

/-- Texts with a clear seam are **unspaced apart**. -/
theorem unspaced_append {xs ys : List Char} (h : Clear xs ys) :
    unspaced 0 (xs ++ ys) = unspaced 0 xs ++ unspaced 0 ys := by
  have hskip (skip : Nat) (hle : skip ≤ xs.length) :
      unspaced skip (xs ++ ys) = unspaced skip xs ++ unspaced 0 ys := by
    induction xs generalizing skip with
    | nil =>
      obtain rfl : skip = 0 := Nat.le_zero.mp hle
      rfl
    | cons c xs ih =>
      have hxs : Clear xs ys := fun q s hne hs => h q s hne (hs.trans (List.suffix_cons c xs))
      rcases skip with _ | skip
      · by_cases hahead : isSpelledAhead (c :: xs) = true
        · obtain ⟨q, hq⟩ := (isSpelledAhead_iff _).mp hahead
          have hlong : 4 ≤ xs.length := by
            have hle := hq.length_le
            simp [spelling] at hle
            omega
          have hahead' : isSpelledAhead (c :: (xs ++ ys)) = true :=
            (isSpelledAhead_iff _).mpr ⟨q, hq.trans (List.prefix_append (c :: xs) ys)⟩
          rw [List.cons_append, unspaced, unspaced, if_pos hahead, if_pos hahead', ih hxs 4 hlong]
        · have hahead' : ¬ isSpelledAhead (c :: (xs ++ ys)) = true := fun hspelled => by
            obtain ⟨q, hq⟩ := (isSpelledAhead_iff _).mp hspelled
            exact hahead ((isSpelledAhead_iff _).mpr
              ⟨q, h q (c :: xs) (by simp) (List.suffix_refl _) hq⟩)
          rw [List.cons_append, unspaced, unspaced, if_neg hahead, if_neg hahead',
            ih hxs 0 (Nat.zero_le _)]
          split_ifs
          · rfl
          · rfl
      · exact ih hxs skip (Nat.le_of_succ_le_succ hle)
  exact hskip 0 (Nat.zero_le _)

/-- A text without a brace spells out nothing. -/
theorem clear_of_not_mem {xs : List Char} (h : '{' ∉ xs) (ys : List Char) : Clear xs ys := by
  intro q s hne hs hq
  obtain ⟨c, s, rfl⟩ := List.exists_cons_of_ne_nil hne
  have hc : '{' = c := (List.cons_prefix_cons.mp hq).1
  exact absurd (hs.subset (hc ▸ List.mem_cons_self)) h

/-- A text that **opens a string**: a quote is the first character that is not blank. -/
def Opens (cs : List Char) : Prop := ∃ q : Quote, (trimStart cs).head? = some q.char

/-- A text that ends with a space spelled out **up to its last brace**. -/
def EndsOpen (cs : List Char) : Prop := ∃ q : Quote, ['{', q.char, ' ', q.char] <:+ cs

theorem isBlank_quote (q : Quote) : isBlank q.char = false := by cases q <;> rfl

theorem quote_ne_brace (q : Quote) : q.char ≠ '{' := by cases q <;> decide

theorem not_opens_of_not_mem {cs : List Char} (h : ∀ q : Quote, q.char ∉ cs) : ¬ Opens cs := by
  intro ⟨q, hq⟩
  exact h q ((List.dropWhile_sublist isBlank).subset (List.mem_of_mem_head? hq))

/-- A quote behind whitespace is **one that is opened**. -/
theorem not_quote_ahead {gap cs : List Char} (hgap : IsGap gap) (h : ¬ Opens cs) (q : Quote)
    (more : List Char) : ¬ q.char :: more <+: gap ++ cs := by
  intro hprefix
  cases hgap with
  | nil =>
    obtain ⟨rest, rfl⟩ := hprefix
    exact h ⟨q, by rw [List.cons_append, trimStart_eq_self (isBlank_quote q)]; rfl⟩
  | blank hblank =>
    rw [← (List.cons_prefix_cons.mp hprefix).1, isBlank_quote] at hblank
    cases hblank
  | spelled => exact quote_ne_brace q (List.cons_prefix_cons.mp hprefix).1

theorem not_space_quote_ahead {gap cs : List Char} (hgap : IsGap gap) (h : ¬ Opens cs) (q : Quote)
    (more : List Char) : ¬ ' ' :: q.char :: more <+: gap ++ cs := by
  intro hprefix
  cases hgap with
  | nil =>
    obtain ⟨rest, rfl⟩ := hprefix
    refine h ⟨q, ?_⟩
    have hspace : trimStart (' ' :: q.char :: (more ++ rest)) =
        trimStart (q.char :: (more ++ rest)) :=
      trimStart_append (show IsBlankRun [' '] by simp [IsBlankRun]; rfl) _
    rw [List.cons_append, List.cons_append, hspace,
      trimStart_eq_self (isBlank_quote q)]
    rfl
  | blank hblank tail =>
    exact not_quote_ahead tail h q more (List.cons_prefix_cons.mp hprefix).2
  | spelled => exact absurd (List.cons_prefix_cons.mp hprefix).1 (by decide)

/-- The seam is clear **before whitespace** and a text that opens no string, unless the two together
close the last brace of a space. -/
theorem clear_gap {xs gap ys : List Char} (hgap : IsGap gap) (h : ¬ Opens ys)
    (hbrace : ¬ EndsOpen xs ∨ ys.head? ≠ some '}') : Clear xs (gap ++ ys) := by
  intro q s hne hs hq
  obtain hwithin | ⟨rest, hrest⟩ := List.prefix_or_prefix_of_prefix hq (List.prefix_append s _)
  · exact hwithin
  rw [← hrest, List.prefix_append_right_inj] at hq
  -- the start of the space is in the first text, and what is left of it after the seam
  rcases s with _ | ⟨c₁, _ | ⟨c₂, _ | ⟨c₃, _ | ⟨c₄, _ | ⟨c₅, s⟩⟩⟩⟩⟩
  · exact absurd rfl hne
  · obtain ⟨-, rfl⟩ := List.cons.inj hrest
    exact absurd hq (not_quote_ahead hgap h q _)
  · obtain ⟨-, -, rfl⟩ : c₁ = '{' ∧ c₂ = q.char ∧ rest = [' ', q.char, '}'] := by
      simpa [spelling] using hrest
    exact absurd hq (not_space_quote_ahead hgap h q _)
  · obtain ⟨-, -, -, rfl⟩ : c₁ = '{' ∧ c₂ = q.char ∧ c₃ = ' ' ∧ rest = [q.char, '}'] := by
      simpa [spelling] using hrest
    exact absurd hq (not_quote_ahead hgap h q _)
  · obtain ⟨rfl, rfl, rfl, rfl, rfl⟩ : c₁ = '{' ∧ c₂ = q.char ∧ c₃ = ' ' ∧ c₄ = q.char ∧
        rest = ['}'] := by
      simpa [spelling] using hrest
    obtain hopen | hhead := hbrace
    · exact absurd ⟨q, hs⟩ hopen
    · cases hgap with
      | nil =>
        obtain ⟨more, rfl⟩ := hq
        exact absurd rfl hhead
      | blank hblank =>
        rw [← (List.cons_prefix_cons.mp hq).1] at hblank
        exact absurd hblank (by decide)
      | spelled => exact absurd (List.cons_prefix_cons.mp hq).1 (by decide)
  · have hlength := congrArg List.length hrest
    simp only [spelling, List.length_append, List.length_cons, List.length_nil] at hlength
    obtain rfl : rest = [] := List.eq_nil_of_length_eq_zero (by omega)
    rw [List.append_nil] at hrest
    exact hrest ▸ List.prefix_refl _

/-! ## Texts in a row -/

/-- A text that is **nothing but whitespace**. -/
def isSpacing (s : String) : Bool :=
  s.toList.all isBlank || s.toList == spelling .double || s.toList == spelling .single

theorem isGap_of_isSpacing {s : String} (h : isSpacing s = true) : IsGap s.toList := by
  rw [isSpacing, Bool.or_eq_true, Bool.or_eq_true, List.all_eq_true, beq_iff_eq, beq_iff_eq] at h
  obtain (hblank | hdouble) | hsingle := h
  · exact isGap_of_isBlankRun hblank
  · rw [hdouble]
    exact .spelled .double .nil
  · rw [hsingle]
    exact .spelled .single .nil

theorem isSpacing_of_eq_spelling {s : String} {q : Quote} (h : s.toList = spelling q) :
    isSpacing s = true := by
  rw [isSpacing, h]
  cases q <;> rfl

/-- A text, unless it is whitespace. -/
def kept (s : String) : List String := if isSpacing s then [] else [s]

/-- A character that is not blank is what a text **opens with**, whatever follows it. -/
theorem opens_append {xs : List Char} (h : ¬ IsBlankRun xs) (ys : List Char) :
    Opens (xs ++ ys) ↔ Opens xs := by
  have hne : trimStart xs ≠ [] := fun hnil => h (trimStart_eq_nil_iff.mp hnil)
  obtain ⟨c, rest, hc, hblank⟩ := exists_trimStart_eq_cons hne
  have happend : trimStart (xs ++ ys) = c :: (rest ++ ys) := by
    rw [← leadingBlanks_append_trimStart xs, List.append_assoc,
      trimStart_append (isBlankRun_leadingBlanks xs), hc, List.cons_append,
      trimStart_eq_self hblank]
  rw [Opens, Opens, hc, happend]
  rfl

/-- One text **may follow** another: no space is spelled out across what stands between them. -/
def Meets (a b : String) : Prop :=
  '{' ∉ a.toList ∨ ¬ Opens b.toList ∧ (¬ EndsOpen a.toList ∨ b.toList.head? ≠ some '}')

theorem Meets.clear {a b : String} (h : Meets a b) (hb : isSpacing b = false) {gap : List Char}
    (hgap : IsGap gap) (more : List Char) : Clear a.toList (gap ++ (b.toList ++ more)) := by
  obtain hbrace | ⟨hopens, hends⟩ := h
  · exact clear_of_not_mem hbrace _
  have hblank : ¬ IsBlankRun b.toList := fun hrun => by
    rw [isSpacing, List.all_eq_true.mpr hrun] at hb
    cases hb
  have hne : b.toList ≠ [] := fun hnil => hblank (by simp [IsBlankRun, hnil])
  refine clear_gap hgap ((opens_append hblank more).not.mpr hopens) ?_
  obtain ⟨c, rest, hc⟩ := List.exists_cons_of_ne_nil hne
  rw [hc] at hends
  rw [hc]
  exact hends

/-- Texts **set out with whitespace** around them and in between. -/
inductive SpacedOut : List String → List Char → Prop
  | nil {gap : List Char} (h : IsGap gap) : SpacedOut [] gap
  | cons {gap : List Char} {s : String} {ts : List String} {cs : List Char} (h : IsGap gap)
      (tail : SpacedOut ts cs) : SpacedOut (s :: ts) (gap ++ (s.toList ++ cs))

namespace SpacedOut

variable {ts : List String} {cs : List Char}

theorem gap_append (h : SpacedOut ts cs) {gap : List Char} (hgap : IsGap gap) :
    SpacedOut ts (gap ++ cs) := by
  cases h with
  | nil h => exact .nil (hgap.append h)
  | cons h tail =>
    rw [← List.append_assoc]
    exact .cons (hgap.append h) tail

/-- In front of texts set out with whitespace, a text has a **clear seam**. -/
theorem clear (h : SpacedOut ts cs) {s : String} (hmeets : ∀ t ∈ ts.head?, Meets s t)
    (hts : ∀ t ∈ ts, isSpacing t = false) : Clear s.toList cs := by
  cases h with
  | nil hgap =>
    rw [← List.append_nil cs]
    exact clear_gap hgap (fun ⟨q, hq⟩ => by cases hq) (.inr (by simp))
  | cons hgap => exact (hmeets _ rfl).clear (hts _ List.mem_cons_self) hgap _

/-- Without its whitespace, what is set out is **the texts** without theirs, one after the other. -/
theorem unspaced_eq (h : SpacedOut ts cs) (hmeets : ts.IsChain Meets)
    (hts : ∀ t ∈ ts, isSpacing t = false) :
    unspaced 0 cs = ts.flatMap fun s => unspaced 0 s.toList := by
  induction h with
  | @nil gap hgap =>
    have hnone := unspaced_gap hgap []
    rwa [List.append_nil] at hnone
  | cons hgap tail ih =>
    obtain ⟨hs, htail⟩ := List.isChain_cons.mp hmeets
    have hrest := (List.forall_mem_cons.mp hts).2
    rw [unspaced_gap hgap, unspaced_append (tail.clear hs hrest), ih htail hrest, List.flatMap_cons]

end SpacedOut

end Text

namespace Piece

open Text

/-- The **texts among pieces**, without those that are whitespace. -/
def texts (pieces : List Piece) : List String :=
  pieces.flatMap fun
    | text s => kept s
    | spaces _ | newline _ | blankLine => []

theorem texts_append (xs ys : List Piece) : texts (xs ++ ys) = texts xs ++ texts ys :=
  List.flatMap_append

theorem isSpacing_of_mem_kept {s t : String} (h : t ∈ kept s) : isSpacing t = false := by
  rw [kept] at h
  split_ifs at h with hs
  · cases h
  · rw [List.mem_singleton.mp h]
    exact Bool.eq_false_iff.mpr hs

theorem isSpacing_of_mem_texts {pieces : List Piece} {s : String} (h : s ∈ texts pieces) :
    isSpacing s = false := by
  obtain ⟨piece, -, hs⟩ := List.mem_flatMap.mp h
  rcases piece with t | _ | _ | _
  · exact isSpacing_of_mem_kept hs
  · cases hs
  · cases hs
  · cases hs

/-- Pieces are written as **their texts, set out** with whitespace. -/
theorem spacedOut (o : LayoutOptions) (pieces : List Piece) :
    SpacedOut (texts pieces) (pieces.flatMap (chars o)) := by
  induction pieces with
  | nil => exact .nil .nil
  | cons piece pieces ih =>
    rcases piece with s | n | indent | _
    · by_cases hs : isSpacing s = true
      · rw [show texts (text s :: pieces) = texts pieces by simp [texts, kept, hs]]
        exact ih.gap_append (isGap_of_isSpacing hs)
      · rw [show texts (text s :: pieces) = s :: texts pieces by simp [texts, kept, hs]]
        exact .cons .nil ih
    · refine ih.gap_append (isGap_of_isBlankRun fun c hc => ?_)
      rw [List.eq_of_mem_replicate hc]
      rfl
    · exact ih.gap_append (isGap_of_isBlankRun (isBreak_chars_newline o indent).2)
    · exact ih.gap_append (isGap_of_isBlankRun (isBreak_chars_blankLine o).2)

end Piece

end Reflow
