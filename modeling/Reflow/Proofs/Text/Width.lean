import Mathlib.Algebra.Order.Ring.Int
import Mathlib.Tactic.SplitIfs
import Reflow.Text.Width

/-!
# Proofs/Text/Width — where columns add up

The columns of a text are more than a sum over its characters, for a character may belong together
with what follows it.  The delimiters of markup never do: a delimiter is one column wherever it
stands, and what is before it is measured as if nothing followed (`Text.columns_append_delimiter`).
-/

namespace Reflow.Text

/-- The **delimiters** of markup. -/
def delimiters : List Char := [' ', '<', '>', '/', '=', '"', '\'']

/-- What can be **checked one by one** is true of every delimiter. -/
@[elab_as_elim]
theorem of_mem_delimiters {p : Char → Prop} [DecidablePred p] {c : Char} (hc : c ∈ delimiters)
    (h : delimiters.all (fun c => decide (p c)) = true) : p c :=
  of_decide_eq_true (List.all_eq_true.mp h c hc)

/-- No selector chooses the form of a delimiter. -/
theorem choose?_delimiter {c : Char} (hc : c ∈ delimiters) (ahead : Ahead) (selector : Selector) :
    selector.choose? ahead c = none := by
  obtain ⟨hemoji, htext, hwide⟩ :
      hasEmojiStyle c = false ∧ hasTextStyle c = false ∧ Selector.hasWideForm c = false :=
    of_mem_delimiters hc (by decide)
  cases selector with
  | emojiStyle => rw [Selector.choose?, if_neg (by simp [hemoji])]
  | textStyle => rw [Selector.choose?, if_neg (by simp [htext])]
  | wideForm => rw [Selector.choose?, if_neg (by simp [hwide])]

theorem step_delimiter {c : Char} (hc : c ∈ delimiters) (joined : Bool) (last : Ligature) :
    last.step joined c = .ends := by
  cases last <;> cases joined <;> exact of_mem_delimiters hc (by decide +kernel)

theorem emoji_step?_delimiter {c : Char} (hc : c ∈ delimiters) (rest : EmojiEnd) :
    rest.step? c = none := by
  obtain ⟨hjoiner, htone, hflag, hbefore, hletter, hdigit, hblack⟩ :
      (c == joiner) = false ∧ isToneBase c = false ∧ isFlagLetter c = false ∧
        EmojiEnd.beforeJoiner? c = none ∧ isTagLetter c = false ∧ isTagDigit c = false ∧
        (c.toNat == 0x1F3F4) = false :=
    of_mem_delimiters hc (by decide)
  rcases rest with _ | _ | _ | _ | _ | _ | _ | odd | ⟨letters, digits⟩
  case joinedLetters => cases odd <;> simp [EmojiEnd.step?, hjoiner, hflag]
  all_goals simp [EmojiEnd.step?, EmojiEnd.beforeTag?, *]

/-- A delimiter **belongs to nothing** that stands ahead of it. -/
theorem step?_delimiter {c : Char} (hc : c ∈ delimiters) (ahead : Ahead) :
    ahead.step? c = none := by
  cases ahead with
  | nothing => rfl
  | lineFeed =>
    have hreturn : (c == '\r') = false := of_mem_delimiters hc (by decide)
    rw [Ahead.step?, hreturn, if_neg Bool.false_ne_true]
  | ligature last joined => rw [Ahead.step?, step_delimiter hc]
  | emoji rest => rw [Ahead.step?, emoji_step?_delimiter hc, Option.map_none]

/-- A delimiter takes **one column**, and nothing before it sees what is behind it. -/
theorem measured_cons_delimiter {c : Char} (hc : c ∈ delimiters) (rest : Measured) :
    Measured.cons c rest = ⟨rest.columns + 1, .nothing, none⟩ := by
  obtain ⟨hselector, hlast, hwidth⟩ :
      Selector.ofChar? c = none ∧ Ahead.ofLast c = .nothing ∧ charWidth c = 1 :=
    of_mem_delimiters hc (by decide)
  have hcons (columns : Int) (ahead : Ahead) :
      Measured.consPlain c columns ahead = ⟨columns + 1, .nothing, none⟩ := by
    rw [Measured.consPlain, hselector, step?_delimiter hc, hlast, hwidth]
    rfl
  cases hrest : rest.selector with
  | none => simp only [Measured.cons, hrest, hcons]
  | some selector => simp only [Measured.cons, hrest, choose?_delimiter hc, hcons]

/-! ## What is counted and taken back

A sequence may count a column before it is complete, and take it back when it turns out to be drawn
as one.  No more is taken back than was counted, so no text takes less than nothing. -/

/-- The columns that a ligature may still **take back**. -/
def Ligature.debt : Ligature → Int
  | subscript | joinedConsonant => 1
  | alef | lamed | ya | vowelYa | consonant | tone | orkhonI | vowelE | vowelAi => 0

/-- The columns that an emoji sequence may still take back. -/
def EmojiEnd.debt : EmojiEnd → Int
  | joinedLetter | joinedLetters true => 1
  | emoji | tone | flagLetter | flagLetters | joined | joinedKeycap | joinedLetters false
  | joinedTag .. => 0

/-- The columns that may still be taken back **by what stands before**. -/
def Ahead.debt : Ahead → Int
  | nothing | lineFeed => 0
  | ligature last _ => last.debt
  | emoji rest => rest.debt

theorem Ligature.debt_nonneg (last : Ligature) : 0 ≤ last.debt := by
  cases last <;> decide

theorem EmojiEnd.debt_nonneg (rest : EmojiEnd) : 0 ≤ rest.debt := by
  fun_cases debt rest <;> decide

theorem Ahead.debt_nonneg (ahead : Ahead) : 0 ≤ ahead.debt := by
  cases ahead with
  | nothing => exact le_rfl
  | lineFeed => exact le_rfl
  | ligature last _ => exact last.debt_nonneg
  | emoji rest => exact rest.debt_nonneg

/-- What a ligature takes back at a step **it has counted**. -/
def Ligature.Step.IsCovered (debt : Int) : Step → Prop
  | goesOn added rest _ => rest.debt ≤ debt + added
  | completes added => 0 ≤ debt + added
  | ends => True

theorem Ligature.isCovered_step (last : Ligature) (joined : Bool) (c : Char) :
    (last.step joined c).IsCovered last.debt := by
  rw [step]
  split_ifs
  · exact (Int.add_zero _).ge
  · exact (Int.add_zero _).ge
  · cases last <;> simp only [stepDrawn, stepVowelE] <;> split_ifs <;>
      simp [Step.IsCovered, debt]

theorem EmojiEnd.debt_le_of_beforeJoiner? {c : Char} {next : EmojiEnd} {added : Int}
    (h : beforeJoiner? c = some (added, next)) : next.debt ≤ added := by
  rw [beforeJoiner?] at h
  split_ifs at h <;> cases h <;> decide

theorem EmojiEnd.debt_le_of_beforeTag? {letters digits : Nat} {c : Char} {next : EmojiEnd}
    {added : Int} (h : beforeTag? letters digits c = some (added, next)) : next.debt ≤ added := by
  rw [beforeTag?] at h
  split_ifs at h <;> cases h <;> simp [debt]

theorem EmojiEnd.debt_le_of_step? {c : Char} {rest next : EmojiEnd} {added : Int}
    (h : rest.step? c = some (added, next)) : next.debt ≤ rest.debt + added := by
  by_cases hjoins : (c == joiner && rest.isJoinable) = true
  · rw [step?.eq_def, if_pos hjoins] at h
    cases h
    simpa [debt] using rest.debt_nonneg
  · rw [step?.eq_def, if_neg hjoins] at h
    rcases rest with _ | _ | _ | _ | _ | _ | _ | odd | ⟨letters, digits⟩
    case joined => simpa [debt] using debt_le_of_beforeJoiner? h
    case joinedTag => simpa [debt] using debt_le_of_beforeTag? h
    case joinedLetters =>
      cases odd <;> simp only at h <;> split_ifs at h <;> cases h <;> decide
    case emoji => cases h
    case joinedKeycap => cases h
    all_goals
      simp only at h
      split_ifs at h
      cases h
      decide

/-- A step takes back **no more than was counted**. -/
theorem Ahead.debt_le_of_step? {c : Char} {ahead next : Ahead} {added : Int}
    (h : ahead.step? c = some (added, next)) : next.debt ≤ ahead.debt + added := by
  cases ahead with
  | nothing => cases h
  | lineFeed =>
    rw [step?] at h
    split_ifs at h
    cases h
    decide
  | ligature last joined =>
    have hcovered := last.isCovered_step joined c
    rw [step?] at h
    split at h
    · next hstep =>
      cases h
      rwa [hstep] at hcovered
    · next hstep =>
      cases h
      rwa [hstep] at hcovered
    · cases h
  | emoji rest =>
    obtain ⟨⟨added, next⟩, hstep, heq⟩ := Option.map_eq_some_iff.mp h
    cases heq
    exact EmojiEnd.debt_le_of_step? hstep

/-- The letters of Khmer that go below another all have a column of their own. -/
theorem one_le_charWidth_of_isSubscriptLetter {c : Char} (h : isSubscriptLetter c) :
    1 ≤ charWidth c := by
  have hletter : 0x1780 ≤ c.toNat ∧ c.toNat ≤ 0x17AF := by
    simp only [isSubscriptLetter, inRanges, List.any_cons, List.any_nil, Bool.or_eq_true,
      Bool.and_eq_true, decide_eq_true_eq, Bool.or_false] at h
    omega
  have hranges : ∀ range ∈ zeroWidthRanges, range.2 < 0x1780 ∨ 0x17AF < range.1 := by decide +kernel
  have hdrawn : inRanges zeroWidthRanges c.toNat = false := by
    rw [inRanges, List.any_eq_false]
    intro range hrange hin
    have := hranges range hrange
    simp only [Bool.and_eq_true, decide_eq_true_eq] at hin
    omega
  rw [charWidth, hdrawn]
  split_ifs <;> simp_all

/-- A letter of Khmer takes the column that a sign before it **takes back**. -/
theorem debt_ofLast_le (c : Char) : (Ahead.ofLast c).debt ≤ charWidth c := by
  have hnonneg : (0 : Int) ≤ charWidth c := Int.natCast_nonneg _
  rw [Ahead.ofLast]
  split_ifs
  · exact hnonneg
  · exact hnonneg
  · split
    · next last hlast =>
      by_cases hsub : isSubscriptLetter c = true
      · have := one_le_charWidth_of_isSubscriptLetter hsub
        have : last.debt ≤ 1 := by cases last <;> decide
        simp only [Ahead.debt]
        omega
      · have : last.debt = 0 := by
          rw [Ligature.ofLast?] at hlast
          split_ifs at hlast <;> cases hlast <;> rfl
        simp [Ahead.debt, this]
    · next rest _ hrest =>
      have : rest.debt = 0 := by
        rw [EmojiEnd.ofLast?] at hrest
        split_ifs at hrest <;> cases hrest <;> rfl
      simp [Ahead.debt, this]
    · exact hnonneg

theorem Selector.debt_behind_le (selector : Selector) (ahead : Ahead) :
    (selector.behind ahead).debt ≤ ahead.debt := by
  rw [behind]
  split_ifs
  · exact le_rfl
  · exact ahead.debt_nonneg

theorem Selector.debt_le_of_choose? {selector : Selector} {ahead next : Ahead} {c : Char}
    {added : Int} (h : selector.choose? ahead c = some (added, next)) :
    next.debt = 0 ∧ 0 ≤ added := by
  cases selector <;> simp only [choose?] at h <;> split_ifs at h <;> cases h <;> decide

namespace Measured

/-- What is counted is **enough** for all that may be taken back. -/
def Covers (measured : Measured) : Prop := measured.ahead.debt ≤ measured.columns

theorem covers_consPlain {columns : Int} {ahead : Ahead} (h : ahead.debt ≤ columns) (c : Char) :
    (consPlain c columns ahead).Covers := by
  rw [consPlain]
  split
  · next selector _ => exact (selector.debt_behind_le ahead).trans h
  · next hstep =>
    have := Ahead.debt_le_of_step? hstep
    simp only [Covers]
    omega
  · have hlast := debt_ofLast_le c
    have := ahead.debt_nonneg
    simp only [Covers]
    omega

theorem Covers.cons {rest : Measured} (h : rest.Covers) (c : Char) : (rest.cons c).Covers := by
  have hnonneg := rest.ahead.debt_nonneg
  rw [Measured.cons]
  split
  · exact covers_consPlain h c
  · split
    · next hchosen =>
      have := Selector.debt_le_of_choose? hchosen
      simp only [Covers] at h ⊢
      omega
    · refine covers_consPlain ?_ c
      split_ifs
      · exact h
      · exact hnonneg.trans h

end Measured

theorem covers_measure (text : List Char) : (measure text).Covers := by
  induction text with
  | nil => exact le_rfl
  | cons c rest ih => exact ih.cons c

/-- No text takes less than nothing. -/
theorem measure_columns_nonneg (text : List Char) : 0 ≤ (measure text).columns :=
  (measure text).ahead.debt_nonneg.trans (covers_measure text)

theorem natCast_columns (text : List Char) : (columns text : Int) = (measure text).columns :=
  Int.toNat_of_nonneg (measure_columns_nonneg text)

/-! ## Columns add up at a delimiter -/

namespace Measured

/-- Columns in front of a text. -/
def shift (k : Int) (measured : Measured) : Measured :=
  { measured with columns := k + measured.columns }

theorem consPlain_shift (c : Char) (k columns : Int) (ahead : Ahead) :
    consPlain c (k + columns) ahead = (consPlain c columns ahead).shift k := by
  simp only [consPlain]
  split <;> simp [shift, Int.add_assoc]

/-- What a character adds **does not depend** on the columns counted so far. -/
theorem cons_shift (c : Char) (k : Int) (rest : Measured) :
    cons c (rest.shift k) = (cons c rest).shift k := by
  simp only [cons, shift]
  split
  · exact consPlain_shift ..
  · split
    · simp [Int.add_assoc]
    · exact consPlain_shift ..

end Measured

theorem measure_append_of_nothing {text rest : List Char} {columns : Int}
    (h : measure rest = ⟨columns, .nothing, none⟩) :
    measure (text ++ rest) = (measure text).shift columns := by
  induction text with
  | nil => simp [h, Measured.shift, Measured.empty]
  | cons c text ih => rw [List.cons_append, measure_cons, ih, Measured.cons_shift, measure_cons]

theorem measure_cons_delimiter {c : Char} (hc : c ∈ delimiters) (rest : List Char) :
    measure (c :: rest) = ⟨(measure rest).columns + 1, .nothing, none⟩ := by
  rw [measure_cons, measured_cons_delimiter hc]

/-- A delimiter is **one column**. -/
theorem columns_cons_delimiter {c : Char} (hc : c ∈ delimiters) (rest : List Char) :
    columns (c :: rest) = columns rest + 1 := by
  have hrest := natCast_columns rest
  have hall := natCast_columns (c :: rest)
  rw [measure_cons_delimiter hc] at hall
  simp only at hall
  omega

/-- The columns of a text **before a delimiter** are its own. -/
theorem columns_append_delimiter {c : Char} (hc : c ∈ delimiters) (text rest : List Char) :
    columns (text ++ c :: rest) = columns text + columns (c :: rest) := by
  have hrest := natCast_columns (c :: rest)
  have hall := natCast_columns (text ++ c :: rest)
  rw [measure_append_of_nothing (measure_cons_delimiter hc rest)] at hall
  rw [measure_cons_delimiter hc] at hrest
  have htext := natCast_columns text
  simp only [Measured.shift] at hall hrest
  omega

/-- A text that **starts with a delimiter**, or is empty. -/
def StartsApart (s : String) : Prop := s.toList.head?.all delimiters.contains = true

instance : DecidablePred StartsApart := fun _ => inferInstanceAs (Decidable (_ = true))

/-- A text that **ends with a delimiter**, or is empty. -/
def EndsApart (s : String) : Prop := s.toList.getLast?.all delimiters.contains = true

instance : DecidablePred EndsApart := fun _ => inferInstanceAs (Decidable (_ = true))

/-- Of a text that is not empty the **start alone** counts. -/
theorem StartsApart.append_of_ne_nil {s : String} (h : StartsApart s) (hne : s.toList ≠ [])
    (t : String) : StartsApart (s ++ t) := by
  obtain ⟨first, rest, hs⟩ := List.exists_cons_of_ne_nil hne
  rw [StartsApart, hs, List.head?_cons] at h
  rwa [StartsApart, String.toList_append, hs, List.cons_append, List.head?_cons]

theorem StartsApart.append {s t : String} (hs : StartsApart s) (ht : StartsApart t) :
    StartsApart (s ++ t) := by
  by_cases hnil : s.toList = []
  · rwa [StartsApart, String.toList_append, hnil, List.nil_append]
  · exact hs.append_of_ne_nil hnil t

/-- The width of a text is that of its parts, if the second **starts with a delimiter**. -/
theorem width_append_of_startsApart (s : String) {t : String} (h : StartsApart t) :
    width (s ++ t) = width s + width t := by
  rw [width, width, width, String.toList_append]
  cases ht : t.toList with
  | nil => rw [List.append_nil, columns_nil, Nat.add_zero]
  | cons c rest =>
    rw [StartsApart, ht, List.head?_cons, Option.all_some, List.contains_iff_mem] at h
    exact columns_append_delimiter h _ _

/-- So it is if the first **ends with one**. -/
theorem width_append_of_endsApart {s : String} (h : EndsApart s) (t : String) :
    width (s ++ t) = width s + width t := by
  rw [width, width, width, String.toList_append]
  rcases List.eq_nil_or_concat s.toList with hs | ⟨front, c, hs⟩
  · rw [hs, List.nil_append, columns_nil, Nat.zero_add]
  · rw [List.concat_eq_append] at hs
    have hc : c ∈ delimiters := by
      rwa [EndsApart, hs, List.getLast?_concat, Option.all_some, List.contains_iff_mem] at h
    rw [hs, List.append_assoc, List.singleton_append, columns_append_delimiter hc,
      columns_append_delimiter hc, columns_cons_delimiter hc, columns_cons_delimiter hc,
      columns_nil]
    omega

/-- The widths of texts that start with delimiters **add up**. -/
theorem startsApart_join {texts : List String} (h : ∀ s ∈ texts, StartsApart s) :
    StartsApart (String.join texts) ∧ width (String.join texts) = (texts.map width).sum := by
  induction texts with
  | nil => exact ⟨rfl, rfl⟩
  | cons s texts ih =>
    obtain ⟨hs, htexts⟩ := List.forall_mem_cons.mp h
    obtain ⟨hstarts, hwidth⟩ := ih htexts
    rw [String.join_cons, List.map_cons, List.sum_cons, ← hwidth]
    exact ⟨hs.append hstarts, width_append_of_startsApart s hstarts⟩

end Reflow.Text
