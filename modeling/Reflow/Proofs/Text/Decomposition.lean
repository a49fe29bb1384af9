import Reflow.Proofs.Text.Alike
import Mathlib.Data.List.Chain

/-!
# Proofs/Text/Decomposition — one decomposition for all scanners

Every text is blanks and words in turn in exactly one way.  A text is classified by its
decomposition, its first word is the first one there, and it counts as content as it is classified
(`Text.exists_scanned`).  Bytes in the place of characters make no difference: cuts at byte offsets
are where characters begin, and line feeds are as many (`Text.count_lineFeed_toByteArray`).
-/

namespace Reflow

namespace Text

/-- **Words, each with the blanks behind it.**  Behind each but the last there are some. -/
structure AreWords (words : List (String × List Char)) : Prop where
  isWord : ∀ w ∈ words, IsWord w.1.toList
  isBlankRun : ∀ w ∈ words, IsBlankRun w.2
  apart : words.IsChain fun w _ => w.2 ≠ []

/-- What words with blanks behind them **make up**. -/
def flat (words : List (String × List Char)) : List Char := words.flatMap fun w => w.1.toList ++ w.2

/-- The blanks behind the last word. -/
def lastRun (words : List (String × List Char)) : List Char := (words.getLast?.map Prod.snd).getD []

/-- The **decomposition** of a text: blanks, perhaps none, and then its words. -/
structure Decomposition where
  leading : List Char
  words : List (String × List Char)
  isBlankRun_leading : IsBlankRun leading
  areWords : AreWords words

namespace Decomposition

/-- The text that is decomposed. -/
def text (d : Decomposition) : List Char := d.leading ++ flat d.words

/-- The blanks behind the last word; none without words. -/
def trailing (d : Decomposition) : List Char := lastRun d.words

end Decomposition

/-- A list is cut **in one way** into members that satisfy `p` and a rest that does
not begin with one. -/
theorem append_inj_of_head? {α : Type} {p : α → Bool} {xs xs' ys ys' : List α}
    (hxs : ∀ x ∈ xs, p x = true) (hxs' : ∀ x ∈ xs', p x = true) (hys : ∀ y ∈ ys.head?, p y = false)
    (hys' : ∀ y ∈ ys'.head?, p y = false) (h : xs ++ ys = xs' ++ ys') : xs = xs' ∧ ys = ys' := by
  have htake {xs ys : List α} (hxs : ∀ x ∈ xs, p x = true) (hys : ∀ y ∈ ys.head?, p y = false) :
      (xs ++ ys).takeWhile p = xs := by
    rw [List.takeWhile_append_of_pos hxs]
    rcases ys with _ | ⟨y, ys⟩
    · exact List.append_nil xs
    · rw [List.takeWhile_cons_of_neg (by simp [hys y rfl]), List.append_nil]
  obtain rfl : xs = xs' := by rw [← htake hxs hys, h, htake hxs' hys']
  exact ⟨rfl, List.append_cancel_left h⟩

/-! ## Words with blanks behind them -/

@[simp] theorem flat_nil : flat [] = [] := rfl

@[simp] theorem flat_cons (w : String × List Char) (words : List (String × List Char)) :
    flat (w :: words) = w.1.toList ++ (w.2 ++ flat words) := by
  rw [flat, List.flatMap_cons, List.append_assoc]
  rfl

@[simp] theorem lastRun_singleton (w : String × List Char) : lastRun [w] = w.2 := rfl

@[simp] theorem lastRun_cons_cons (w next : String × List Char)
    (words : List (String × List Char)) :
    lastRun (w :: next :: words) = lastRun (next :: words) := by
  rw [lastRun, List.getLast?_cons_cons, lastRun]

namespace AreWords

variable {w next : String × List Char} {words words' : List (String × List Char)}

theorem nil : AreWords [] := ⟨by simp, by simp, .nil⟩

theorem singleton (hword : IsWord w.1.toList) (hrun : IsBlankRun w.2) : AreWords [w] :=
  ⟨by simpa using hword, by simpa using hrun, .singleton w⟩

theorem cons (hword : IsWord w.1.toList) (hrun : IsBlankRun w.2) (apart : w.2 ≠ [])
    (h : AreWords (next :: words)) : AreWords (w :: next :: words) :=
  ⟨List.forall_mem_cons.mpr ⟨hword, h.isWord⟩, List.forall_mem_cons.mpr ⟨hrun, h.isBlankRun⟩,
    List.isChain_cons_cons.mpr ⟨apart, h.apart⟩⟩

theorem tail (h : AreWords (w :: words)) : AreWords words :=
  ⟨(List.forall_mem_cons.mp h.isWord).2, (List.forall_mem_cons.mp h.isBlankRun).2, h.apart.tail⟩

/-- They begin with **a character of a word**. -/
theorem head?_flat (h : AreWords words) : ∀ c ∈ (flat words).head?, isBlank c = false := by
  intro c hc
  rcases words with _ | ⟨w, words⟩
  · cases hc
  · have hword := h.isWord w List.mem_cons_self
    rw [flat_cons, List.head?_append_of_ne_nil _ hword.1] at hc
    exact hword.2 c (List.mem_of_mem_head? hc)

/-- Behind the first word **a blank** follows, or nothing. -/
theorem head?_behind (h : AreWords (w :: words)) :
    ∀ c ∈ (w.2 ++ flat words).head?, isBlank c = true := by
  intro c hc
  have hrun := h.isBlankRun w List.mem_cons_self
  rcases words with _ | ⟨next, words⟩
  · rw [flat_nil, List.append_nil] at hc
    exact hrun c (List.mem_of_mem_head? hc)
  · have hapart : w.2 ≠ [] := (List.isChain_cons_cons.mp h.apart).1
    rw [List.head?_append_of_ne_nil _ hapart] at hc
    exact hrun c (List.mem_of_mem_head? hc)

/-- The words they are made of are **the words of the text**. -/
theorem words_flat (h : AreWords words) : Text.words (flat words) = words.map Prod.fst := by
  induction words with
  | nil => rfl
  | cons w words ih =>
    have hword := h.isWord w List.mem_cons_self
    have hrun := h.isBlankRun w List.mem_cons_self
    rw [flat_cons, words_append_of_isWord hword h.head?_behind, words_append_of_isBlankRun hrun,
      ih h.tail, String.ofList_toList, List.map_cons]

/-! ## There is one way -/

/-- Words with the blanks behind them are **told by what they make up**. -/
theorem eq_of_flat_eq (h : AreWords words) (h' : AreWords words') (heq : flat words = flat words') :
    words = words' := by
  induction words generalizing words' with
  | nil =>
    rcases words' with _ | ⟨w', words'⟩
    · rfl
    · rw [flat_nil, flat_cons, eq_comm, List.append_eq_nil_iff] at heq
      exact absurd heq.1 (h'.isWord w' List.mem_cons_self).1
  | cons w words ih =>
    have hword := h.isWord w List.mem_cons_self
    rcases words' with _ | ⟨w', words'⟩
    · rw [flat_nil, flat_cons, List.append_eq_nil_iff] at heq
      exact absurd heq.1 hword.1
    · rw [flat_cons, flat_cons] at heq
      have hword' := h'.isWord w' List.mem_cons_self
      obtain ⟨hfst, hbehind⟩ := append_inj_of_head? (p := fun c => !isBlank c)
        (fun c hc => by simp [hword.2 c hc]) (fun c hc => by simp [hword'.2 c hc])
        (fun c hc => by simp [h.head?_behind c hc]) (fun c hc => by simp [h'.head?_behind c hc]) heq
      obtain ⟨hsnd, hrest⟩ := append_inj_of_head? (h.isBlankRun w List.mem_cons_self)
        (h'.isBlankRun w' List.mem_cons_self) h.tail.head?_flat h'.tail.head?_flat hbehind
      rw [Prod.ext (String.toList_injective hfst) hsnd, ih h.tail h'.tail hrest]

/-! ## There is a way -/

theorem isBlankRun_lastRun (h : AreWords words) : IsBlankRun (lastRun words) := by
  cases hlast : words.getLast? with
  | none => simp [lastRun, hlast, IsBlankRun]
  | some w =>
    rw [lastRun, hlast]
    exact h.isBlankRun w (List.mem_of_getLast? hlast)

/-- Words joined by blanks, **apart from the blanks** behind the last of them. -/
theorem exists_joined (h : AreWords words) (hne : words ≠ []) :
    ∃ inner, Joined (words.map Prod.fst) inner ∧ flat words = inner ++ lastRun words := by
  induction words with
  | nil => exact absurd rfl hne
  | cons w words ih =>
    have hword := h.isWord w List.mem_cons_self
    have hrun := h.isBlankRun w List.mem_cons_self
    rcases words with _ | ⟨next, words⟩
    · exact ⟨w.1.toList, .single hword, by simp⟩
    · obtain ⟨inner, hjoined, hflat⟩ := ih h.tail (List.cons_ne_nil _ _)
      refine ⟨w.1.toList ++ w.2 ++ inner,
        .cons hword hrun (List.isChain_cons_cons.mp h.apart).1 hjoined, ?_⟩
      rw [flat_cons, hflat, lastRun_cons_cons, List.append_assoc, List.append_assoc]

/-- They begin with a word, and nothing of them is **trimmed in front**. -/
theorem trimStart_flat (h : AreWords words) : trimStart (flat words) = flat words := by
  cases hflat : flat words with
  | nil => rfl
  | cons c rest => exact trimStart_eq_self (h.head?_flat c (by rw [hflat]; rfl))

/-- **Trimmed at the end** are the blanks behind the last word. -/
theorem trimEnd_flat_append_lastRun (h : AreWords words) :
    trimEnd (flat words) ++ lastRun words = flat words := by
  by_cases hne : words = []
  · subst hne
    rfl
  · obtain ⟨inner, hjoined, hflat⟩ := h.exists_joined hne
    obtain ⟨front, c, hc, hblank⟩ := hjoined.exists_eq_concat
    rw [hflat, trimEnd_append h.isBlankRun_lastRun, hc, trimEnd_eq_self hblank]

end AreWords

theorem Joined.exists_areWords {ws : List String} {inner trailing : List Char} (h : Joined ws inner)
    (ht : IsBlankRun trailing) :
    ∃ w words, AreWords (w :: words) ∧ flat (w :: words) = inner ++ trailing := by
  induction h with
  | @single word hword => exact ⟨(word, trailing), [], .singleton hword ht, by simp⟩
  | @cons word ws run cs hword hrun apart tail ih =>
    obtain ⟨w, words, hwords, hflat⟩ := ih
    refine ⟨(word, run), w :: words, .cons hword hrun apart hwords, ?_⟩
    rw [flat_cons, hflat, List.append_assoc, List.append_assoc]

namespace Decomposition

/-- Every text has **a decomposition**. -/
theorem exists_text_eq (raw : String) : ∃ d : Decomposition, d.text = raw.toList := by
  obtain ⟨hblank, -⟩ | ⟨leading, ws, inner, trailing, hraw, hl, ht, hjoined, -⟩ :=
    TextContent.ofText_cases raw
  · exact ⟨⟨raw.toList, [], hblank, .nil⟩, List.append_nil _⟩
  · obtain ⟨w, words, hwords, hflat⟩ := hjoined.exists_areWords ht
    exact ⟨⟨leading, w :: words, hl, hwords⟩, by rw [text, hflat, hraw, List.append_assoc]⟩

/-- Of two decompositions of one text **the parts are the same**. -/
theorem eq_of_text_eq {d d' : Decomposition} (h : d.text = d'.text) : d = d' := by
  obtain ⟨hleading, hflat⟩ := append_inj_of_head? d.isBlankRun_leading d'.isBlankRun_leading
    d.areWords.head?_flat d'.areWords.head?_flat h
  have hwords := d.areWords.eq_of_flat_eq d'.areWords hflat
  obtain ⟨leading, words, _, _⟩ := d
  obtain ⟨leading', words', _, _⟩ := d'
  cases hleading
  cases hwords
  rfl

end Decomposition

/-! ## In bytes -/

/-- A text put together of two is cut **where the first one ends**, counted in bytes. -/
theorem exists_pos_splits {s front back : String} (h : s = front ++ back) :
    ∃ p : s.Pos, p.offset.byteIdx = front.utf8ByteSize ∧ p.Splits front back := by
  subst h
  have hvalid : String.Pos.Raw.IsValid (front ++ back) front.rawEndPos :=
    String.Pos.Raw.isValid_iff_exists_append.mpr ⟨front, back, rfl, rfl⟩
  exact ⟨⟨front.rawEndPos, hvalid⟩, rfl, rfl, rfl⟩

/-- Only a line feed **has its byte** in its encoding. -/
theorem count_utf8EncodeChar (c : Char) : (String.utf8EncodeChar c).count 10 = [c].count '\n' := by
  by_cases hc : c = '\n'
  · rw [hc]
    rfl
  · have hval : c.val.toNat ≠ 10 := fun heq => hc (Char.ext (UInt32.toNat_inj.mp heq))
    have hbyte {n : Nat} (hn : n < 256) (hne : n ≠ 10) : UInt8.ofNat n ≠ 10 := fun heq => by
      have hnat := congrArg UInt8.toNat heq
      rw [UInt8.toNat_ofNat', Nat.mod_eq_of_lt (by simpa using hn)] at hnat
      exact hne hnat
    have hbytes : ∀ byte ∈ String.utf8EncodeChar c, byte ≠ 10 := by
      unfold String.utf8EncodeChar
      simp only
      split_ifs <;>
        simp only [List.forall_mem_cons, List.not_mem_nil, false_imp_iff, implies_true,
          and_true] <;>
        and_intros <;> exact hbyte (by omega) (by omega)
    have hnone : 10 ∉ String.utf8EncodeChar c := fun hmem => hbytes 10 hmem rfl
    rw [List.count_eq_zero.mpr hnone, List.count_eq_zero.mpr (by simpa using Ne.symm hc)]

/-- Line feeds may be **counted in bytes**. -/
theorem count_lineFeed_toByteArray (s : String) :
    s.toByteArray.data.toList.count 10 = s.toList.count '\n' := by
  have hbytes (cs : List Char) : (cs.flatMap String.utf8EncodeChar).count 10 = cs.count '\n' := by
    induction cs with
    | nil => rfl
    | cons c cs ih =>
      rw [List.flatMap_cons, List.count_append, count_utf8EncodeChar, ih, ← List.count_append,
        List.singleton_append]
  have hencoded : s.toByteArray = (s.toList.flatMap String.utf8EncodeChar).toByteArray := by
    rw [← List.utf8Encode, ← String.toByteArray_ofList, String.ofList_toList]
  rw [hencoded, List.data_toByteArray, hbytes]

/-! ## The scanners -/

open TextContent in
/-- What the scanners make of a text **with this decomposition**. -/
structure Scanned (raw : String) (d : Decomposition) : Prop where
  /-- Blanks alone. -/
  blank : ofText raw = .blank (.ofRun raw.toList) ↔ d.words = []
  /-- At least one word. -/
  words (h : d.words ≠ []) : ofText raw = .words
    (if d.leading = [] then none else some (.ofRun d.leading)) (d.words.map Prod.fst)
    (if d.trailing = [] then none else some (.ofRun d.trailing))
  firstWord : firstWord raw = (d.words.map Prod.fst).headD ""
  isMeaningful : isMeaningful raw = false ↔
    ofText raw = .blank .lineBreak ∨ ofText raw = .blank .blankLine
  /-- In front of the first word, found by the bytes from there on. -/
  leadingCut : ∃ p : raw.Pos,
    p.offset.byteIdx = raw.utf8ByteSize - (String.ofList (trimStart raw.toList)).utf8ByteSize ∧
      p.Splits (String.ofList d.leading) (String.ofList (trimStart raw.toList))
  /-- Behind the last word, found by the bytes up to there. -/
  trailingCut : ∃ p : (String.ofList (trimStart raw.toList)).Pos,
    p.offset.byteIdx = (String.ofList (trimEnd (trimStart raw.toList))).utf8ByteSize ∧
      p.Splits (String.ofList (trimEnd (trimStart raw.toList))) (String.ofList d.trailing)

namespace Decomposition

variable {raw : String} {d : Decomposition}

theorem trimStart_text (d : Decomposition) : trimStart d.text = flat d.words := by
  rw [text, trimStart_append d.isBlankRun_leading, d.areWords.trimStart_flat]

theorem ofText_of_words_eq_nil (h : d.text = raw.toList) (hnil : d.words = []) :
    TextContent.ofText raw = .blank (.ofRun raw.toList) := by
  rw [TextContent.ofText, ← h, d.trimStart_text, hnil]
  rfl

theorem ofText_of_words_ne_nil (h : d.text = raw.toList) (hne : d.words ≠ []) :
    TextContent.ofText raw = .words (Whitespace.ofEdge? d.leading) (d.words.map Prod.fst)
      (Whitespace.ofEdge? d.trailing) := by
  obtain ⟨inner, hjoined, hflat⟩ := d.areWords.exists_joined hne
  refine TextContent.ofText_of_joined ?_ d.isBlankRun_leading d.areWords.isBlankRun_lastRun hjoined
  rw [← h, text, hflat, trailing, List.append_assoc]

theorem words_text (d : Decomposition) : Text.words d.text = d.words.map Prod.fst := by
  rw [text, words_append_of_isBlankRun d.isBlankRun_leading, d.areWords.words_flat]

theorem scanned (h : d.text = raw.toList) : Scanned raw d where
  blank := by
    refine ⟨fun hof => ?_, ofText_of_words_eq_nil h⟩
    by_contra hne
    rw [ofText_of_words_ne_nil h hne] at hof
    cases hof
  words hne := by
    rw [ofText_of_words_ne_nil h hne, Whitespace.ofEdge?, Whitespace.ofEdge?]
    simp only [List.isEmpty_iff]
  firstWord := by
    rw [firstWord_eq_head?, ← h, words_text, List.headD_eq_head?_getD]
  isMeaningful := by
    rw [TextContent.isMeaningful_eq_false_iff]
    constructor
    · rintro ⟨_ | _ | _, hof, hspans⟩
      · cases hspans
      · exact .inl hof
      · exact .inr hof
    · rintro (hof | hof)
      · exact ⟨.lineBreak, hof, rfl⟩
      · exact ⟨.blankLine, hof, rfl⟩
  leadingCut := by
    have hraw : raw = String.ofList d.leading ++ String.ofList (trimStart raw.toList) := by
      rw [← String.ofList_append, ← h, d.trimStart_text, ← text, h, String.ofList_toList]
    obtain ⟨p, hp, hsplits⟩ := exists_pos_splits hraw
    refine ⟨p, ?_, hsplits⟩
    have hsize := congrArg String.utf8ByteSize hraw
    rw [String.utf8ByteSize_append] at hsize
    omega
  trailingCut := by
    refine exists_pos_splits ?_
    rw [← String.ofList_append, ← h, d.trimStart_text, trailing,
      d.areWords.trimEnd_flat_append_lastRun]

end Decomposition

/-- Every text has **one decomposition** into blanks and words, and all scanners go by it. -/
theorem exists_scanned (raw : String) :
    ∃ d : Decomposition, (∀ d' : Decomposition, d'.text = raw.toList ↔ d' = d) ∧ Scanned raw d := by
  obtain ⟨d, hd⟩ := Decomposition.exists_text_eq raw
  refine ⟨d, fun d' => ⟨fun h => Decomposition.eq_of_text_eq (h.trans hd.symm), ?_⟩, d.scanned hd⟩
  rintro rfl
  exact hd

/-- A no-break space **belongs to a word**. -/
example : TextContent.ofText "a\u00a0b " = .words none ["a\u00a0b"]
    (some .space) := by decide +kernel

end Text

end Reflow
