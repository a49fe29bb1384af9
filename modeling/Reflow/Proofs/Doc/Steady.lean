import Reflow.Proofs.Doc.Texts

/-!
# Proofs/Doc/Steady — documents that print the same texts at every width

A document is **steady** if its choices agree and its texts may follow each other whatever stands
between them (`Doc.IsSteady`).  Steady documents are put together from steady ones; only a text with
quotes or braces of its own needs texts without them on both sides (`Text.Tidy.insert`).
-/

namespace Reflow

namespace Text

/-- A space that is spelled out has **a brace in front**. -/
theorem not_endsOpen_of_not_mem {cs : List Char} (h : '{' ∉ cs) : ¬ EndsOpen cs := fun ⟨_, hq⟩ =>
  h (hq.subset List.mem_cons_self)

theorem not_endsOpen_of_isInert {s : String} (h : isInert s = true) : ¬ EndsOpen s.toList :=
  not_endsOpen_of_not_mem fun hmem => (ne_of_isInert h hmem).1 rfl

/-- Texts that may follow each other, and **anything that is tidy itself**. -/
structure Tidy (ts : List String) : Prop where
  chain : ts.IsChain Meets
  start : ∀ s ∈ ts.head?, ¬ Opens s.toList ∧ s.toList.head? ≠ some '}'
  finish : ∀ s ∈ ts.getLast?, ¬ EndsOpen s.toList

namespace Tidy

variable {xs ys : List String}

/-- Inert texts have neither quotes nor braces, so **any of them may meet**. -/
theorem of_inert (h : ∀ x ∈ xs, isInert x = true) : Tidy xs where
  chain := by
    induction xs with
    | nil => exact .nil
    | cons x xs ih =>
      obtain ⟨hx, hxs⟩ := List.forall_mem_cons.mp h
      exact List.isChain_cons.mpr ⟨fun y _ => meets_of_isInert_left hx y, ih hxs⟩
  start s hs :=
    have hinert := h s (List.mem_of_mem_head? hs)
    ⟨not_opens_of_isInert hinert, head_ne_of_isInert hinert⟩
  finish s hs := not_endsOpen_of_isInert (h s (List.mem_of_mem_getLast? hs))

theorem nil : Tidy [] := of_inert (by simp)

/-- Whatever stands in front may be followed by **tidy texts**. -/
theorem meets_head (h : Tidy xs) (a : String) : ∀ s ∈ xs.head?, Meets a s := fun s hs =>
  .inr ⟨(h.start s hs).1, .inr (h.start s hs).2⟩

/-- A tidy row of texts **may follow anything**, so it may follow another one. -/
theorem append (h : Tidy xs) (h' : Tidy ys) : Tidy (xs ++ ys) where
  chain := List.isChain_append.mpr ⟨h.chain, h'.chain, fun a _ b hb => h'.meets_head a b hb⟩
  start s hs := by
    rcases xs with _ | ⟨x, xs⟩
    · exact h'.start s hs
    · exact h.start s hs
  finish s hs := by
    by_cases hys : ys = []
    · subst hys
      rw [List.append_nil] at hs
      exact h.finish s hs
    · rw [List.getLast?_append_of_ne_nil _ hys] at hs
      exact h'.finish s hs

theorem flatMap {α : Type} {as : List α} {f : α → List String} (h : ∀ a ∈ as, Tidy (f a)) :
    Tidy (as.flatMap f) := by
  induction as with
  | nil => exact .nil
  | cons a as ih =>
    obtain ⟨ha, has⟩ := List.forall_mem_cons.mp h
    rw [List.flatMap_cons]
    exact ha.append (ih has)

/-- Tidy texts **in braces**. -/
theorem braced (h : Tidy xs) : Tidy ("\x7b" :: (xs ++ ["\x7d"])) := by
  have hopens {s : String} (hs : ∀ q : Quote, q.char ∉ s.toList) : ¬ Opens s.toList :=
    not_opens_of_not_mem hs
  have hopen : ¬ Opens "\x7b".toList := hopens (by rintro (_ | _) <;> decide)
  have hclose : ¬ Opens "\x7d".toList := hopens (by rintro (_ | _) <;> decide)
  have hopenEnd : ¬ EndsOpen "\x7b".toList := fun ⟨q, hq⟩ => by
    have hle := hq.length_le
    simp at hle
  have hcloseEnd : ¬ EndsOpen "\x7d".toList := not_endsOpen_of_not_mem (by decide)
  have hlast : ∀ a ∈ xs.getLast?, Meets a "\x7d" := fun a ha => .inr ⟨hclose, .inl (h.finish a ha)⟩
  refine ⟨List.isChain_cons.mpr ⟨fun s hs => ?_, ?_⟩, fun s hs => ?_, fun s hs => ?_⟩
  · rcases xs with _ | ⟨x, xs⟩
    · cases hs
      exact .inr ⟨hclose, .inl hopenEnd⟩
    · exact h.meets_head _ s hs
  · refine List.isChain_append.mpr ⟨h.chain, .singleton _, fun a ha b hb => ?_⟩
    cases hb
    exact hlast a ha
  · cases hs
    exact ⟨hopen, by decide⟩
  · rw [List.getLast?_cons, List.getLast?_append, List.getLast?_singleton] at hs
    cases hs
    exact hcloseEnd

/-- **Any text at all** between texts without quotes and braces and tidy ones. -/
theorem insert (s : String) (hx : ∀ x ∈ xs, isInert x = true) (hne : xs ≠ []) (hy : Tidy ys)
    (hs : ys = [] → ¬ EndsOpen s.toList) : Tidy (xs ++ s :: ys) where
  chain := by
    refine List.isChain_append.mpr ⟨(of_inert hx).chain, ?_, fun a ha b _ => ?_⟩
    · exact List.isChain_cons.mpr ⟨hy.meets_head s, hy.chain⟩
    · exact meets_of_isInert_left (hx a (List.mem_of_mem_getLast? ha)) b
  start t ht := by
    obtain ⟨x, xs, rfl⟩ := List.exists_cons_of_ne_nil hne
    exact (of_inert hx).start t ht
  finish t ht := by
    rw [List.getLast?_append_of_ne_nil _ (by simp)] at ht
    by_cases hys : ys = []
    · subst hys
      cases ht
      exact hs rfl
    · rw [List.getLast?_cons_of_ne_nil hys] at ht
      exact hy.finish t ht

end Tidy

end Text

namespace Doc

open Text (Tidy kept isInert)

/-- A document that prints **the same texts at every width**, and between which
nothing is spelled out. -/
structure IsSteady (doc : Doc) : Prop where
  agrees : doc.Agrees
  tidy : Tidy (doc.texts false)

/-- A steady document **without quotes and braces**. -/
structure IsCalm (doc : Doc) : Prop where
  agrees : doc.Agrees
  inert : ∀ t ∈ doc.texts false, isInert t = true

/-- Calm is more than steady: its texts may be taken **apart and put together** anywhere. -/
theorem IsCalm.isSteady {doc : Doc} (h : doc.IsCalm) : doc.IsSteady := ⟨h.agrees, .of_inert h.inert⟩

theorem isCalm_text {s : String} (h : isInert s = true) : (text s).IsCalm :=
  ⟨.text s, Text.forall_mem_kept h⟩

theorem isCalm_line (kind : LineKind) : (line kind).IsCalm := ⟨.line kind, by simp⟩

theorem isCalm_nil : nil.IsCalm := ⟨.concat (by simp), by simp [nil]⟩

/-- Documents in a row are calm **together**, as no text of theirs needs another beside it. -/
theorem IsCalm.concat {docs : List Doc} (h : ∀ doc ∈ docs, doc.IsCalm) : (concat docs).IsCalm := by
  refine ⟨.concat fun doc hdoc => (h doc hdoc).agrees, ?_⟩
  rw [texts_concat]
  intro t ht
  obtain ⟨doc, hdoc, ht⟩ := List.mem_flatMap.mp ht
  exact (h doc hdoc).inert t ht

theorem IsCalm.indent {doc : Doc} (h : doc.IsCalm) : (indent doc).IsCalm :=
  ⟨.indent h.agrees, h.inert⟩

/-- Calm documents with calm ones **in between**. -/
theorem isCalm_intersperse {between : Doc} (hbetween : between.IsCalm) {docs : List Doc}
    (h : ∀ doc ∈ docs, doc.IsCalm) : ∀ doc ∈ docs.intersperse between, doc.IsCalm := by
  induction docs with
  | nil => exact h
  | cons doc docs ih =>
    obtain ⟨hdoc, hdocs⟩ := List.forall_mem_cons.mp h
    rcases docs with _ | ⟨next, docs⟩
    · exact h
    · rw [List.intersperse_cons_cons, List.forall_mem_cons, List.forall_mem_cons]
      exact ⟨hdoc, hbetween, ih hdocs⟩

namespace IsSteady

variable {doc : Doc} {docs : List Doc}

/-- Steady documents may **stand in a row**, as each begins and ends tidily. -/
theorem concat (h : ∀ doc ∈ docs, doc.IsSteady) : (concat docs).IsSteady := by
  refine ⟨.concat fun doc hdoc => (h doc hdoc).agrees, ?_⟩
  rw [texts_concat]
  exact .flatMap fun doc hdoc => (h doc hdoc).tidy

theorem fill (h : ∀ doc ∈ docs, doc.IsSteady) : (fill docs).IsSteady := by
  refine ⟨.fill fun doc hdoc => (h doc hdoc).agrees, ?_⟩
  rw [texts_fill]
  exact .flatMap fun doc hdoc => (h doc hdoc).tidy

theorem indent (h : doc.IsSteady) : (indent doc).IsSteady := ⟨.indent h.agrees, h.tidy⟩

theorem group (h : doc.IsSteady) (shouldBreak : Bool) : (group shouldBreak doc).IsSteady :=
  ⟨.group shouldBreak h.agrees, h.tidy⟩

end IsSteady

theorem Agrees.append {a b : Doc} (ha : a.Agrees) (hb : b.Agrees) : (a ++ b).Agrees := by
  change (Doc.append a b).Agrees
  rw [append.eq_def]
  split
  · cases ha with
    | concat ha => exact .concat (List.forall_mem_append.mpr ⟨ha, List.forall_mem_singleton.mpr hb⟩)
  · exact .concat (by simp [ha, hb])

/-- **Appending** opens the list that stands first, so it is a case of its own
beside the list of two. -/
theorem IsSteady.append {a b : Doc} (ha : a.IsSteady) (hb : b.IsSteady) : (a ++ b).IsSteady := by
  refine ⟨ha.agrees.append hb.agrees, ?_⟩
  rw [texts_append]
  exact ha.tidy.append hb.tidy

theorem IsCalm.append {a b : Doc} (ha : a.IsCalm) (hb : b.IsCalm) : (a ++ b).IsCalm := by
  refine ⟨ha.agrees.append hb.agrees, ?_⟩
  rw [texts_append]
  exact List.forall_mem_append.mpr ⟨ha.inert, hb.inert⟩

end Doc

end Reflow
