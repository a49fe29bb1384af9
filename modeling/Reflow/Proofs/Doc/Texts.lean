import Reflow.Proofs.Doc.Outcome
import Reflow.Proofs.Text.Unspaced

/-!
# Proofs/Doc/Texts — the texts of a document

Whatever the width, a document prints texts in an order of its own, if its choices are **between
whitespaces only** (`Doc.Agrees`).  What it holds back comes later than it stands, but it is text
without quotes and braces, which may stand anywhere (`Text.Woven`).
-/

namespace Reflow

namespace Text

/-- A text **without quotes and braces**. -/
def isInert (s : String) : Bool :=
  s.toList.all fun c => c != '{' && c != '}' && c != '"' && c != '\''

section Inert

variable {s : String}

theorem ne_of_isInert (h : isInert s = true) {c : Char} (hc : c ∈ s.toList) :
    c ≠ '{' ∧ c ≠ '}' ∧ ∀ q : Quote, c ≠ q.char := by
  have hne := List.all_eq_true.mp h c hc
  simp only [Bool.and_eq_true, bne_iff_ne, ne_eq, and_assoc] at hne
  obtain ⟨hopen, hclose, hdouble, hsingle⟩ := hne
  refine ⟨hopen, hclose, fun q => ?_⟩
  cases q with
  | double => exact hdouble
  | single => exact hsingle

theorem not_opens_of_isInert (h : isInert s = true) : ¬ Opens s.toList :=
  not_opens_of_not_mem fun q hq => (ne_of_isInert h hq).2.2 q rfl

theorem head_ne_of_isInert (h : isInert s = true) : s.toList.head? ≠ some '}' := fun hs =>
  (ne_of_isInert h (List.mem_of_mem_head? hs)).2.1 rfl

/-- An inert text **may follow any other**, since it opens and closes nothing. -/
theorem meets_of_isInert_right (h : isInert s = true) (a : String) : Meets a s :=
  .inr ⟨not_opens_of_isInert h, .inr (head_ne_of_isInert h)⟩

theorem meets_of_isInert_left (h : isInert s = true) (b : String) : Meets s b :=
  .inl fun hmem => (ne_of_isInert h hmem).1 rfl

end Inert

/-- A text that is kept is that text. -/
theorem forall_mem_kept {s : String} {P : String → Prop} (h : P s) : ∀ t ∈ kept s, P t := by
  intro t ht
  rw [kept] at ht
  split_ifs at ht
  · cases ht
  · rwa [List.mem_singleton.mp ht]

/-- Texts **with others woven in**, which have neither quotes nor braces. -/
inductive Woven : List String → List String → Prop
  | nil : Woven [] []
  | keep (s : String) {xs ts : List String} (h : Woven xs ts) : Woven (s :: xs) (s :: ts)
  | insert {s : String} {xs ts : List String} (inert : isInert s = true) (h : Woven xs ts) :
      Woven xs (s :: ts)

namespace Woven

variable {xs ys ts us : List String}

theorem refl (xs : List String) : Woven xs xs := by
  induction xs with
  | nil => exact .nil
  | cons x xs ih => exact .keep x ih

/-- Rows of texts with others woven in are, one behind the other, **such a row again**. -/
theorem append (h : Woven xs ts) (h' : Woven ys us) : Woven (xs ++ ys) (ts ++ us) := by
  induction h with
  | nil => exact h'
  | keep s _ ih => exact .keep s ih
  | insert inert _ ih => exact .insert inert ih

/-- Texts that may stand anywhere are woven into **nothing**. -/
theorem of_inert (h : Woven xs ts) (hx : ∀ x ∈ xs, isInert x = true) : Woven [] ts := by
  induction h with
  | nil => exact .nil
  | keep s _ ih =>
    obtain ⟨hs, hx⟩ := List.forall_mem_cons.mp hx
    exact .insert hs (ih hx)
  | insert inert _ ih => exact .insert inert (ih hx)

/-- The first text is **the first of the row**, or one that is woven in before it. -/
theorem head?_cases (h : Woven xs ts) : ∀ t ∈ ts.head?, t ∈ xs.head? ∨ isInert t = true := by
  cases h with
  | nil => simp
  | keep s => simp
  | insert inert => simp [inert]

/-- What is woven in keeps texts **following each other**. -/
theorem isChain (h : Woven xs ts) (hx : xs.IsChain Meets) : ts.IsChain Meets := by
  induction h with
  | nil => exact .nil
  | keep s h ih =>
    obtain ⟨hmeets, htail⟩ := List.isChain_cons.mp hx
    refine List.isChain_cons.mpr ⟨fun t ht => ?_, ih htail⟩
    obtain hmem | hinert := h.head?_cases t ht
    · exact hmeets t hmem
    · exact meets_of_isInert_right hinert s
  | insert inert _ ih =>
    exact List.isChain_cons.mpr ⟨fun t _ => meets_of_isInert_left inert t, ih hx⟩

end Woven

end Text

namespace Doc

open Text (kept isSpacing isInert)

mutual

/-- The **texts of a document** in their order, without those that are whitespace; with
what it holds back where it stands, or without it.  Of a choice between variants the first
one speaks for all. -/
def texts (held : Bool) : Doc → List String
  | text s => kept s
  | line _ | suffixBoundary => []
  | concat docs | fill docs => allTexts held docs
  | indent doc | group _ doc => doc.texts held
  | ifBreak _ flat => flat.texts held
  | conditional variants => firstTexts held variants
  | lineSuffix doc => if held then doc.texts held else []

def allTexts (held : Bool) : List Doc → List String
  | [] => []
  | doc :: docs => doc.texts held ++ allTexts held docs

def firstTexts (held : Bool) : List Doc → List String
  | [] => []
  | doc :: _ => doc.texts held

end

variable {held : Bool}

theorem allTexts_eq_flatMap (held : Bool) (docs : List Doc) :
    allTexts held docs = docs.flatMap (texts held) := by
  induction docs with
  | nil => rfl
  | cons doc docs ih => rw [allTexts, ih, List.flatMap_cons]

@[simp] theorem texts_text (s : String) : (text s).texts held = kept s := rfl

@[simp] theorem texts_line (kind : LineKind) : (line kind).texts held = [] := rfl

@[simp] theorem texts_suffixBoundary : suffixBoundary.texts held = [] := rfl

@[simp] theorem texts_indent (doc : Doc) : (indent doc).texts held = doc.texts held := rfl

@[simp] theorem texts_group (shouldBreak : Bool) (doc : Doc) :
    (group shouldBreak doc).texts held = doc.texts held := rfl

@[simp] theorem texts_fill (docs : List Doc) :
    (fill docs).texts held = docs.flatMap (texts held) := by
  rw [texts, allTexts_eq_flatMap]

@[simp] theorem texts_concat (docs : List Doc) :
    (concat docs).texts held = docs.flatMap (texts held) := by
  rw [texts, allTexts_eq_flatMap]

/-- However the lists are flattened in it, **nothing is left out**. -/
@[simp] theorem texts_append (a b : Doc) : (a ++ b).texts held = a.texts held ++ b.texts held := by
  change (append a b).texts held = _
  cases a <;> simp [append]

/-! ## Documents of texts -/

/-- A document of **texts that satisfy `P`** and lines that need not break. -/
inductive Only (P : String → Prop) : Doc → Prop
  | text {s : String} (h : P s) : Only P (text s)
  | line {kind : LineKind} (h : kind ≠ .hard) : Only P (line kind)
  | concat {docs : List Doc} (h : ∀ doc ∈ docs, Only P doc) : Only P (concat docs)

namespace Only

variable {P : String → Prop} {doc : Doc}

theorem suffixDepth_eq_zero (h : doc.Only P) : doc.suffixDepth = 0 := by
  induction h with
  | text => rfl
  | line => rfl
  | concat _ ih =>
    rw [suffixDepth, maxSuffixDepth_eq_zero_iff]
    exact ih

/-- The texts of such a document satisfy `P`. -/
theorem forall_texts (h : doc.Only P) : ∀ t ∈ doc.texts held, P t := by
  induction h with
  | text h => exact Text.forall_mem_kept h
  | line => simp [texts]
  | concat _ ih =>
    rw [texts_concat]
    intro t ht
    obtain ⟨doc, hdoc, ht⟩ := List.mem_flatMap.mp ht
    exact ih doc hdoc t ht

end Only

/-- **Whitespace** as a document. -/
abbrev IsSpacing (doc : Doc) : Prop := doc.Only (isSpacing · = true)

/-- Text without quotes and braces, which **may be printed anywhere**. -/
abbrev IsInert (doc : Doc) : Prop := doc.Only (isInert · = true)

theorem IsSpacing.texts_eq_nil {doc : Doc} (h : doc.IsSpacing) : doc.texts held = [] := by
  induction h with
  | text h => rw [texts, kept, if_pos h]
  | line => rfl
  | concat _ ih =>
    rw [texts_concat, List.flatMap_eq_nil_iff]
    exact ih

/-! ## Choices that agree -/

/-- A document whose **choices agree**: the two sides of a choice by mode are whitespace, variants
have the same texts, and what is held back has neither quotes nor braces.  Of variants that hold
something back, all but the last are bound to break, and never printed. -/
inductive Agrees : Doc → Prop
  | text (s : String) : Agrees (text s)
  | line (kind : LineKind) : Agrees (line kind)
  | suffixBoundary : Agrees suffixBoundary
  | concat {docs : List Doc} (h : ∀ doc ∈ docs, Agrees doc) : Agrees (concat docs)
  | fill {docs : List Doc} (h : ∀ doc ∈ docs, Agrees doc) : Agrees (fill docs)
  | indent {doc : Doc} (h : Agrees doc) : Agrees (indent doc)
  | group (shouldBreak : Bool) {doc : Doc} (h : Agrees doc) : Agrees (group shouldBreak doc)
  | ifBreak {broken flat : Doc} (hb : broken.IsSpacing) (hf : flat.IsSpacing) :
      Agrees (ifBreak broken flat)
  | conditional {variants : List Doc} (ne : variants ≠ []) (h : ∀ doc ∈ variants, Agrees doc)
      (same : ∀ held, ∀ doc ∈ variants, doc.texts held = firstTexts held variants)
      (back : (∀ doc ∈ variants, doc.suffixDepth = 0) ∨
        ∀ doc ∈ variants.dropLast, doc.willBreak = true) :
      Agrees (conditional variants)
  | lineSuffix {doc : Doc} (h : doc.IsInert) : Agrees (lineSuffix doc)

theorem Only.agrees {P : String → Prop} {doc : Doc} (h : doc.Only P) : doc.Agrees := by
  induction h with
  | text => exact .text _
  | line => exact .line _
  | concat _ ih => exact .concat ih

/-- What is not bound to break **holds nothing back**. -/
theorem Agrees.suffixDepth_eq_zero {doc : Doc} (h : doc.Agrees) (hb : doc.willBreak = false) :
    doc.suffixDepth = 0 := by
  induction h with
  | text | line | suffixBoundary => rfl
  | concat _ ih =>
    rw [willBreak_concat, List.any_eq_false] at hb
    rw [suffixDepth, maxSuffixDepth_eq_zero_iff]
    exact fun doc hdoc => ih doc hdoc (Bool.eq_false_iff.mpr (hb doc hdoc))
  | fill _ ih =>
    rw [willBreak, anyWillBreak_eq_any, List.any_eq_false] at hb
    rw [suffixDepth, maxSuffixDepth_eq_zero_iff]
    exact fun doc hdoc => ih doc hdoc (Bool.eq_false_iff.mpr (hb doc hdoc))
  | indent _ ih => exact ih hb
  | group _ _ ih => exact ih (Bool.or_eq_false_iff.mp hb).2
  | ifBreak hbroken hflat =>
    rw [suffixDepth, Nat.max_eq_zero_iff]
    exact ⟨hbroken.suffixDepth_eq_zero, hflat.suffixDepth_eq_zero⟩
  | @conditional variants ne _ _ back ih =>
    rw [suffixDepth, maxSuffixDepth_eq_zero_iff]
    obtain hnone | hbreak := back
    · exact hnone
    obtain ⟨first, others, rfl⟩ := List.exists_cons_of_ne_nil ne
    rcases others with _ | ⟨next, others⟩
    · rw [List.forall_mem_singleton]
      exact ih first List.mem_cons_self hb
    · have hfirst : first.willBreak = true := hbreak first (by simp)
      rw [willBreak, firstWillBreak, hfirst] at hb
      cases hb
  | lineSuffix => cases hb

/-- A document **inside another**, at any depth. -/
inductive Within (inner : Doc) : Doc → Prop
  | refl : Within inner inner
  | concat {doc : Doc} {docs : List Doc} (mem : doc ∈ docs) (h : Within inner doc) :
      Within inner (concat docs)
  | fill {doc : Doc} {docs : List Doc} (mem : doc ∈ docs) (h : Within inner doc) :
      Within inner (fill docs)
  | indent {doc : Doc} (h : Within inner doc) : Within inner (indent doc)
  | group (shouldBreak : Bool) {doc : Doc} (h : Within inner doc) :
      Within inner (group shouldBreak doc)
  | broken {broken : Doc} (flat : Doc) (h : Within inner broken) :
      Within inner (ifBreak broken flat)
  | flat (broken : Doc) {flat : Doc} (h : Within inner flat) : Within inner (ifBreak broken flat)
  | variant {doc : Doc} {variants : List Doc} (mem : doc ∈ variants) (h : Within inner doc) :
      Within inner (conditional variants)
  | lineSuffix {doc : Doc} (h : Within inner doc) : Within inner (lineSuffix doc)

namespace Agrees

variable {doc inner : Doc}

/-- Choices that agree do so **at every depth**. -/
theorem within (h : doc.Agrees) (hw : inner.Within doc) : inner.Agrees := by
  induction hw with
  | refl => exact h
  | concat mem _ ih =>
    cases h with
    | concat h => exact ih (h _ mem)
  | fill mem _ ih =>
    cases h with
    | fill h => exact ih (h _ mem)
  | indent _ ih =>
    cases h with
    | indent h => exact ih h
  | group _ _ ih =>
    cases h with
    | group _ h => exact ih h
  | broken _ _ ih =>
    cases h with
    | ifBreak hb _ => exact ih hb.agrees
  | flat _ _ ih =>
    cases h with
    | ifBreak _ hf => exact ih hf.agrees
  | variant mem _ ih =>
    cases h with
    | conditional _ h => exact ih (h _ mem)
  | lineSuffix _ ih =>
    cases h with
    | lineSuffix h => exact ih h.agrees

/-- Any two variants of a choice have **the same texts**, what they hold back included or not. -/
theorem texts_eq (h : doc.Agrees) {variants : List Doc} (hw : Within (.conditional variants) doc)
    (held : Bool) {a b : Doc} (ha : a ∈ variants) (hb : b ∈ variants) :
    a.texts held = b.texts held := by
  cases h.within hw with
  | conditional _ _ same => rw [same held a ha, same held b hb]

end Agrees

end Doc

end Reflow
