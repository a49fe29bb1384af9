import Mathlib.Data.Multiset.AddSub
import Mathlib.Tactic.SplitIfs
import Reflow.Markup.Comments
import Reflow.Proofs.Doc.Closing

/-!
# Proofs/Doc/Carrying — documents built around the answers of a host

A printer puts documents of its own around those a host hands back.  `Doc.Carries` is the record of
such a construction: every answer stands in the document once, of a choice in each variant, and a
choice around an answer that is bound to break has a first variant that is.  So a break is never
hidden (`Doc.Carries.willBreak_eq_true`), and what is held back is not either
(`Doc.Carries.isCandid`).
-/

namespace Reflow

/-- A document that a printer **gets back**: the host's own, or one of the printer's with comments
around it. -/
inductive Answer where
  | own (doc : Doc)
  | commented (doc : Doc)

namespace Answer

/-- The document of an answer. -/
def doc : Answer → Doc
  | own doc | commented doc => doc

/-- An answer that holds back **at most so deep**: comments hold back one level if
they hold back at all. -/
def HoldsBack (n : Nat) : Answer → Prop
  | own doc => doc.suffixDepth ≤ n
  | commented doc => n = 0 → doc.willBreak = false

theorem forall_mem_add {P : Answer → Prop} {answers others : Multiset Answer} :
    (∀ answer ∈ answers + others, P answer) ↔
      (∀ answer ∈ answers, P answer) ∧ ∀ answer ∈ others, P answer := by
  simp only [Multiset.mem_add, or_imp, forall_and]

end Answer

namespace Doc

/-- A document that is **built around these answers**.  What an answer holds inside is none of the
printer's making and stays closed; only comments are put around what is built already. -/
inductive Carries : Doc → Multiset Answer → Prop
  | own (doc : Doc) : Carries doc {.own doc}
  | around {doc : Doc} {answers : Multiset Answer} (comments : List Comment)
    (h : Carries doc answers) :
      Carries (Comment.around comments doc) (answers + {.commented (Comment.around comments doc)})
  | text (s : String) : Carries (text s) 0
  | line (kind : LineKind) : Carries (line kind) 0
  | suffixBoundary : Carries suffixBoundary 0
  | nil : Carries (concat []) 0
  | cons {doc : Doc} {docs : List Doc} {answers others : Multiset Answer} (h : Carries doc answers)
      (hs : Carries (concat docs) others) : Carries (concat (doc :: docs)) (answers + others)
  | append {a b : Doc} {answers others : Multiset Answer} (ha : Carries a answers)
      (hb : Carries b others) : Carries (a ++ b) (answers + others)
  | fill {parts : List Doc} {answers : Multiset Answer} (h : Carries (concat parts) answers) :
      Carries (fill parts) answers
  | indent {doc : Doc} {answers : Multiset Answer} (h : Carries doc answers) :
      Carries (indent doc) answers
  | group (shouldBreak : Bool) {doc : Doc} {answers : Multiset Answer} (h : Carries doc answers) :
      Carries (group shouldBreak doc) answers
  | ifBreak {broken flat : Doc} (hb : Carries broken 0) (hf : Carries flat 0) :
      Carries (ifBreak broken flat) 0
  | conditional {first : Doc} {others : List Doc} {answers : Multiset Answer}
      (h : ∀ variant ∈ first :: others, Carries variant answers)
      (breaks : (∃ answer ∈ answers, answer.doc.willBreak = true) → first.willBreak = true) :
      Carries (conditional (first :: others)) answers

end Doc

/-! ## Comments -/

namespace Comment

variable {comments : List Comment} {doc : Doc}

/-- A comment that is **held back** to the end of its line. -/
def isHeldBack (c : Comment) : Bool := c.isTrailing && c.isLine

/-- Comments leave a break where it is. -/
theorem willBreak_around (comments : List Comment) (h : doc.willBreak = true) :
    (around comments doc).willBreak = true := by
  rw [around]
  split_ifs
  · exact h
  · simp [h]

/-- A comment that is held back **breaks** what it is put behind. -/
theorem willBreak_around_of_isHeldBack (h : comments.any isHeldBack = true) (doc : Doc) :
    (around comments doc).willBreak = true := by
  obtain ⟨c, hmem, hheld⟩ := List.any_eq_true.mp h
  obtain ⟨htrailing, hline⟩ := Bool.and_eq_true_iff.mp hheld
  have hc : c ∈ comments.filter isTrailing := List.mem_filter.mpr ⟨hmem, htrailing⟩
  have hbreak : c.trailingDoc.willBreak = true := by
    rw [trailingDoc, if_pos hline]
    rfl
  have hne : (comments.filter isTrailing).isEmpty = false :=
    Bool.eq_false_iff.mpr fun hnil => List.ne_nil_of_mem hc (List.isEmpty_iff.mp hnil)
  rw [around]
  simp only [hne, Bool.and_false, Bool.false_eq_true, if_false, Doc.willBreak_concat,
    List.any_eq_true]
  exact ⟨_, List.mem_append_right _ (List.mem_map_of_mem hc), hbreak⟩

/-- Comments are put **before and after** a document.  Those before it hold nothing back, those
after it one level, if one of them is held back at all. -/
theorem around_cases (comments : List Comment) (doc : Doc) :
    around comments doc = doc ∨
      ∃ before after, around comments doc = .concat (before ++ doc :: after) ∧
      (∀ other ∈ before, other.suffixDepth = 0) ∧ (∀ other ∈ after, other.suffixDepth ≤ 1) ∧
      (comments.any isHeldBack = false → ∀ other ∈ after, other.suffixDepth = 0) := by
  rw [around]
  split_ifs
  · exact .inl rfl
  refine .inr ⟨(comments.filter isLeading).flatMap leadingDocs,
    (comments.filter isTrailing).map trailingDoc, by simp, ?_, ?_, fun hnone => ?_⟩
  · intro leading hleading
    obtain ⟨c, -, hleading⟩ := List.mem_flatMap.mp hleading
    rw [leadingDocs, List.mem_cons, List.mem_singleton] at hleading
    obtain rfl | rfl := hleading
    · rfl
    · split_ifs <;> rfl
  · rw [List.forall_mem_map]
    intro c _
    rw [trailingDoc]
    split_ifs
    · exact Nat.le_refl 1
    · exact Nat.zero_le 1
  · rw [List.forall_mem_map]
    intro c hc
    obtain ⟨hmem, htrailing⟩ := List.mem_filter.mp hc
    have hline := List.any_eq_false.mp hnone c hmem
    rw [isHeldBack, htrailing, Bool.true_and] at hline
    rw [trailingDoc, if_neg hline]
    rfl

theorem suffixDepth_around_le {n : Nat} (hdoc : doc.suffixDepth ≤ n)
    (h : n = 0 → comments.any isHeldBack = false) : (around comments doc).suffixDepth ≤ n := by
  obtain heq | ⟨before, after, heq, hbefore, hafter, hnone⟩ := around_cases comments doc
  · rwa [heq]
  rw [heq, Doc.suffixDepth, Doc.maxSuffixDepth_le_iff, List.forall_mem_append, List.forall_mem_cons]
  refine ⟨fun other hother => (hbefore other hother).trans_le (Nat.zero_le n), hdoc, ?_⟩
  intro other hother
  cases n with
  | zero => exact (hnone (h rfl) other hother).le
  | succ n => exact (hafter other hother).trans (Nat.le_add_left 1 n)

/-- Comments that are not held back are printed **with the document**. -/
theorem settles_around (h : comments.any isHeldBack = false) (hdoc : doc.Settles) :
    (around comments doc).Settles := by
  obtain heq | ⟨before, after, heq, hbefore, -, hnone⟩ := around_cases comments doc
  · rwa [heq]
  rw [heq]
  refine .concat ?_
  rw [List.forall_mem_append, List.forall_mem_cons]
  exact ⟨fun other hother => Doc.settles_of_suffixDepth (hbefore other hother), hdoc,
    fun other hother => Doc.settles_of_suffixDepth (hnone h other hother)⟩

end Comment

namespace Doc

namespace Carries

variable {doc : Doc} {answers others : Multiset Answer}

/-- A document is bound to break **if an answer in it is**. -/
theorem willBreak_eq_true (h : doc.Carries answers) :
    (∃ answer ∈ answers, answer.doc.willBreak = true) → doc.willBreak = true := by
  induction h with
  | own => simp [Answer.doc]
  | around comments _ ih =>
    rintro ⟨answer, hmem, hbreak⟩
    obtain hmem | hmem := Multiset.mem_add.mp hmem
    · exact Comment.willBreak_around comments (ih ⟨answer, hmem, hbreak⟩)
    · rwa [Multiset.mem_singleton.mp hmem] at hbreak
  | text | line | suffixBoundary | nil | ifBreak => simp
  | cons _ _ ih ihs =>
    rintro ⟨answer, hmem, hbreak⟩
    rw [willBreak_concat, List.any_cons, ← willBreak_concat, Bool.or_eq_true]
    obtain hmem | hmem := Multiset.mem_add.mp hmem
    · exact .inl (ih ⟨answer, hmem, hbreak⟩)
    · exact .inr (ihs ⟨answer, hmem, hbreak⟩)
  | append _ _ iha ihb =>
    rintro ⟨answer, hmem, hbreak⟩
    rw [willBreak_append, Bool.or_eq_true]
    obtain hmem | hmem := Multiset.mem_add.mp hmem
    · exact .inl (iha ⟨answer, hmem, hbreak⟩)
    · exact .inr (ihb ⟨answer, hmem, hbreak⟩)
  | fill _ ih => exact ih
  | indent _ ih => exact ih
  | group _ _ ih =>
    intro hbreak
    rw [willBreak, ih hbreak, Bool.or_true]
  | conditional _ breaks _ => exact breaks

/-- A document holds back **no deeper than its answers**. -/
theorem suffixDepth_le {n : Nat} (h : doc.Carries answers)
    (hanswers : ∀ answer ∈ answers, answer.HoldsBack n) : doc.suffixDepth ≤ n := by
  induction h with
  | own doc => exact hanswers (.own doc) (Multiset.mem_singleton_self _)
  | around comments _ ih =>
    obtain ⟨hinside, haround⟩ := Answer.forall_mem_add.mp hanswers
    refine Comment.suffixDepth_around_le (ih hinside) fun hn =>
      Bool.eq_false_iff.mpr fun hheld => ?_
    have hbreak := haround _ (Multiset.mem_singleton_self _) hn
    rw [Comment.willBreak_around_of_isHeldBack hheld] at hbreak
    cases hbreak
  | text | line | suffixBoundary | nil => exact Nat.zero_le n
  | cons _ _ ih ihs =>
    obtain ⟨hfirst, hothers⟩ := Answer.forall_mem_add.mp hanswers
    exact Nat.max_le.mpr ⟨ih hfirst, ihs hothers⟩
  | append _ _ iha ihb =>
    obtain ⟨ha, hb⟩ := Answer.forall_mem_add.mp hanswers
    exact suffixDepth_append_le (iha ha) (ihb hb)
  | fill _ ih => exact ih hanswers
  | indent _ ih => exact ih hanswers
  | group _ _ ih => exact ih hanswers
  | ifBreak _ _ ihb ihf => exact Nat.max_le.mpr ⟨ihb (by simp), ihf (by simp)⟩
  | conditional _ _ ih =>
    exact maxSuffixDepth_le_iff.mpr fun variant hvariant => ih variant hvariant hanswers

/-- A document built around **candid** answers is candid. -/
theorem isCandid (h : doc.Carries answers) (hown : ∀ other, .own other ∈ answers → other.IsCandid) :
    doc.IsCandid := by
  constructor
  · refine h.suffixDepth_le fun answer hmem => ?_
    cases answer with
    | own other => exact (hown other hmem).shallow
    | commented other => exact fun hone => absurd hone (by decide)
  · intro hbreak
    have hnone (answer : Answer) (hmem : answer ∈ answers) : answer.doc.willBreak = false := by
      by_contra hanswer
      have hbroken := h.willBreak_eq_true ⟨answer, hmem, Bool.not_eq_false _ ▸ hanswer⟩
      rw [hbreak] at hbroken
      cases hbroken
    refine Nat.le_zero.mp (h.suffixDepth_le fun answer hmem => ?_)
    cases answer with
    | own other => exact ((hown other hmem).none_of_not_break (hnone _ hmem)).le
    | commented other => exact fun _ => hnone _ hmem

end Carries

/-! ## Lists of documents -/

/-- Documents that carry these answers **between them**. -/
inductive AllCarry : List Doc → Multiset Answer → Prop
  | nil : AllCarry [] 0
  | cons {doc : Doc} {docs : List Doc} {answers others : Multiset Answer} (h : doc.Carries answers)
      (hs : AllCarry docs others) : AllCarry (doc :: docs) (answers + others)

namespace AllCarry

variable {docs docs' : List Doc} {answers others : Multiset Answer}

theorem concat (h : AllCarry docs answers) : (Doc.concat docs).Carries answers := by
  induction h with
  | nil => exact .nil
  | cons h _ ih => exact .cons h ih

/-- A document that carries nothing **changes nothing**. -/
theorem cons_zero {doc : Doc} (hdoc : doc.Carries 0) (h : AllCarry docs answers) :
    AllCarry (doc :: docs) answers := by
  rw [← Multiset.zero_add answers]
  exact .cons hdoc h

theorem append (h : AllCarry docs answers) (h' : AllCarry docs' others) :
    AllCarry (docs ++ docs') (answers + others) := by
  induction h with
  | nil =>
    rw [Multiset.zero_add]
    exact h'
  | cons h _ ih =>
    rw [Multiset.add_assoc]
    exact .cons h ih

end AllCarry

end Doc

end Reflow
