import Reflow.Proofs.Doc.Pending

/-!
# Proofs/Doc/Closing — documents that end with a bracket

A bracket closes a document if nothing that the document holds back is printed behind it.  That is
so if something behind all it holds back takes along what is pending: a line, for the document is
bound to break if it holds anything back, or the boundary of a line (`Doc.Settles.of_stop`).  The
text of such a document ends with the bracket (`Doc.Closes.isSuffix_typeset`).
-/

namespace Reflow

namespace Doc

/-! ## What is printed inside -/

/-- A document that **does not hide what it holds back**: it holds back plain documents only, and is
bound to break if it holds back any. -/
structure IsCandid (doc : Doc) : Prop where
  shallow : doc.suffixDepth ≤ 1
  none_of_not_break : doc.willBreak = false → doc.suffixDepth = 0

/-- A document that **prints all it holds back**: nothing new is pending after it. -/
def Settles (doc : Doc) : Prop :=
  ∀ flush, Flush.Clears flush → ∀ indentWidth state beforeBreak pending, AllPlain pending →
    (doc.willBreak = true → state = .broken) →
    (resolve flush indentWidth state beforeBreak doc pending).pending = [] ∨
      (resolve flush indentWidth state beforeBreak doc pending).pending = pending

theorem isCandid_of_suffixDepth {doc : Doc} (h : doc.suffixDepth = 0) : doc.IsCandid :=
  ⟨by omega, fun _ => h⟩

theorem settles_of_suffixDepth {doc : Doc} (h : doc.suffixDepth = 0) : doc.Settles := by
  intro flush hflush indentWidth state beforeBreak pending hp _
  exact (resolve_leaves hflush indentWidth state beforeBreak doc (by omega) hp).settled h

theorem settles_text (s : String) : (text s).Settles := settles_of_suffixDepth rfl

/-- Documents one after the other: what the first leave pending, the others see. -/
theorem exists_resolveAll_append {flush : Flush} (hflush : flush.Clears) (indentWidth : Nat)
    (state : GroupState) {front : List Doc} (h : maxSuffixDepth front ≤ 1) (back : List Doc)
    {pending : List Doc} (hp : AllPlain pending) :
    ∃ next, Leaves pending (maxSuffixDepth front = 0) next ∧
      (resolveAll flush indentWidth state (front ++ back) pending).pending =
        (resolveAll flush indentWidth state back next).pending := by
  induction front generalizing pending with
  | nil => exact ⟨pending, .refl hp, rfl⟩
  | cons doc front ih =>
    obtain ⟨hdoc, hfront⟩ := Nat.max_le.mp h
    have hhere :=
      resolve_leaves hflush indentWidth state (nextIsBreak state (front ++ back)) doc hdoc
      hp
    obtain ⟨next, hnext, heq⟩ := ih hfront hhere.plain
    exact ⟨next, hhere.trans hnext Nat.max_eq_zero_iff.mp, heq⟩

/-- A document that **takes along what is pending** in a broken group. -/
def Stops (stop : Doc) : Prop :=
  ∀ flush, Flush.Clears flush → ∀ indentWidth beforeBreak pending, AllPlain pending →
    (resolve flush indentWidth .broken beforeBreak stop pending).pending = []

theorem stops_line (kind : LineKind) : (line kind).Stops :=
  fun _ hflush _ beforeBreak _ hp => pending_line_broken hflush kind beforeBreak hp

theorem stops_suffixBoundary : suffixBoundary.Stops :=
  fun _ hflush _ _ _ hp => pending_boundary hflush hp

/-- In a broken group nothing is pending **behind a stop**. -/
theorem pending_resolveAll_stop {front rest : List Doc} {stop : Doc} (hstop : stop.Stops)
    (h : maxSuffixDepth (front ++ stop :: rest) ≤ 1) (hrest : maxSuffixDepth rest = 0)
    {flush : Flush} (hflush : flush.Clears) (indentWidth : Nat) {pending : List Doc}
    (hp : AllPlain pending) :
    (resolveAll flush indentWidth .broken (front ++ stop :: rest) pending).pending = [] := by
  have hfront : maxSuffixDepth front ≤ 1 := maxSuffixDepth_le_iff.mpr
    (List.forall_mem_append.mp (maxSuffixDepth_le_iff.mp h)).1
  obtain ⟨next, hnext, heq⟩ :=
    exists_resolveAll_append hflush indentWidth .broken hfront (stop :: rest) hp
  have hnil : AllPlain [] := by simp [AllPlain]
  have hlater := resolveAll_leaves hflush indentWidth .broken rest (by omega) hnil
  rw [heq, resolveAll, hstop flush hflush indentWidth _ next hnext.plain]
  exact or_self_iff.mp (hlater.settled hrest)

namespace Settles

/-- A candid document **with a stop** behind all it holds back settles: if it is broken the stop
takes along what is pending, and otherwise nothing is held back. -/
theorem of_stop {front rest : List Doc} {stop : Doc}
    (h : (concat (front ++ stop :: rest)).IsCandid) (hstop : stop.Stops)
    (hrest : maxSuffixDepth rest = 0) : (concat (front ++ stop :: rest)).Settles := by
  intro flush hflush indentWidth state beforeBreak pending hp hstate
  by_cases hbreak : (concat (front ++ stop :: rest)).willBreak = true
  · rw [hstate hbreak]
    exact .inl (pending_resolveAll_stop hstop h.shallow hrest hflush indentWidth hp)
  · exact (resolve_leaves hflush indentWidth state beforeBreak _ h.shallow hp).settled
      (h.none_of_not_break (Bool.eq_false_iff.mpr hbreak))

/-- So does a group of such documents, also if it is broken **for no reason of theirs**. -/
theorem group_of_stop {shouldBreak : Bool} {front rest : List Doc} {stop : Doc}
    (h : (group shouldBreak (concat (front ++ stop :: rest))).IsCandid) (hstop : stop.Stops)
    (hrest : maxSuffixDepth rest = 0) :
    (group shouldBreak (concat (front ++ stop :: rest))).Settles := by
  intro flush hflush indentWidth state beforeBreak pending hp hstate
  by_cases hbreak : (group shouldBreak (concat (front ++ stop :: rest))).willBreak = true
  · have hinner : innerState state (shouldBreak || (concat (front ++ stop :: rest)).willBreak) =
        .broken := by
      rw [willBreak] at hbreak
      rw [hstate hbreak, hbreak]
      rfl
    left
    rw [resolve]
    dsimp only
    rw [hinner]
    exact pending_resolveAll_stop hstop h.shallow hrest hflush indentWidth hp
  · exact (resolve_leaves hflush indentWidth state beforeBreak _ h.shallow hp).settled
      (h.none_of_not_break (Bool.eq_false_iff.mpr hbreak))

theorem concat {docs : List Doc} (h : ∀ doc ∈ docs, doc.Settles) : (concat docs).Settles := by
  intro flush hflush indentWidth state beforeBreak pending hp hstate
  rw [willBreak_concat, List.any_eq_true] at hstate
  rw [resolve]
  induction docs generalizing pending with
  | nil => exact .inr rfl
  | cons doc docs ih =>
    obtain ⟨hdoc, hdocs⟩ := List.forall_mem_cons.mp h
    have hlater (next : List Doc) (hnext : AllPlain next) := ih hdocs next hnext
      fun ⟨other, hmem, hbreak⟩ => hstate ⟨other, List.mem_cons_of_mem doc hmem, hbreak⟩
    have hhere := hdoc flush hflush indentWidth state (nextIsBreak state docs) pending hp
      fun hbreak => hstate ⟨doc, List.mem_cons_self, hbreak⟩
    rw [resolveAll]
    obtain hnil | hkept := hhere
    · rw [hnil]
      exact .inl (or_self_iff.mp (hlater [] (by simp [AllPlain])))
    · rw [hkept]
      exact hlater pending hp

/-- The contents of a group are broken **if they have to be**. -/
theorem group {doc : Doc} (h : doc.Settles) (shouldBreak : Bool) :
    (group shouldBreak doc).Settles := by
  intro flush hflush indentWidth state beforeBreak pending hp hstate
  refine h flush hflush indentWidth _ false pending hp fun hbreak => ?_
  rw [willBreak, hbreak, Bool.or_true] at hstate
  rw [hstate rfl, hbreak, Bool.or_true]
  rfl

/-- A line, and a document after it that **settles**, take along what is pending. -/
theorem stops {front : List Doc} {last : Doc} (h : last.Settles) (kind : LineKind)
    (hdepth : maxSuffixDepth (front ++ [line kind, last]) ≤ 1) :
    (indent (Doc.concat (front ++ [line kind, last]))).Stops := by
  intro flush hflush indentWidth beforeBreak pending hp
  have hfront : maxSuffixDepth front ≤ 1 := maxSuffixDepth_le_iff.mpr
    (List.forall_mem_append.mp (maxSuffixDepth_le_iff.mp hdepth)).1
  obtain ⟨next, hnext, heq⟩ :=
    exists_resolveAll_append hflush indentWidth .broken hfront [line kind, last] hp
  have hline : (resolve flush indentWidth .broken (nextIsBreak .broken [last]) (line kind)
      next).pending = [] := pending_line_broken hflush kind _ hnext.plain
  change (resolveAll flush indentWidth .broken (front ++ [line kind, last]) pending).pending = []
  rw [heq, resolveAll, resolveAll, hline]
  exact or_self_iff.mp (h flush hflush indentWidth .broken _ [] (by simp [AllPlain]) fun _ => rfl)

end Settles

end Doc

/-! ## The end of a document -/

/-- A layout whose last piece is a text that **ends with this one**, however it is set. -/
def Layout.EndsWith (layout : Layout) (s : String) : Prop :=
  ∀ mode pieces, layout.MayPrint mode pieces →
    ∃ front last, pieces = front ++ [.text last] ∧ s.toList <:+ last.toList

namespace Layout.EndsWith

variable {layout : Layout} {s : String}

theorem text {last : String} (h : s.toList <:+ last.toList) : (Layout.text last).EndsWith s := by
  rintro mode pieces ⟨⟩
  exact ⟨[], last, rfl, h⟩

theorem seq (first : Layout) (h : layout.EndsWith s) : (Layout.seq first layout).EndsWith s := by
  rintro mode pieces ⟨⟩
  obtain ⟨front, last, rfl, hlast⟩ := h _ _ ‹_›
  exact ⟨_ ++ front, last, (List.append_assoc ..).symm, hlast⟩

theorem seq_nil (h : layout.EndsWith s) : (Layout.seq layout .nil).EndsWith s := by
  rintro mode pieces ⟨⟩
  cases ‹MayPrint _ .nil _›
  rw [List.append_nil]
  exact h _ _ ‹_›

theorem inGroup (h : layout.EndsWith s) (state : GroupState) :
    (Doc.inGroup state layout).EndsWith s := by
  cases state with
  | flat | broken => exact h
  | undecided =>
    rintro mode pieces ⟨⟩
    exact h _ _ ‹_›

end Layout.EndsWith

namespace Doc

/-- A document whose last text **ends with this one**, however it is resolved. -/
def EndsWith (doc : Doc) (s : String) : Prop :=
  ∀ flush indentWidth state beforeBreak pending,
    (resolve flush indentWidth state beforeBreak doc pending).layout.EndsWith s

theorem endsWith_concat (front : List Doc) {s last : String} (h : s.toList <:+ last.toList) :
    (concat (front ++ [text last])).EndsWith s := by
  intro flush indentWidth state beforeBreak pending
  rw [resolve]
  induction front generalizing pending with
  | nil => exact (Layout.EndsWith.text h).seq_nil
  | cons doc front ih => exact (ih _).seq _

theorem EndsWith.group {doc : Doc} {s : String} (h : doc.EndsWith s) (shouldBreak : Bool) :
    (group shouldBreak doc).EndsWith s :=
  fun flush indentWidth _ _ pending => (h flush indentWidth _ false pending).inGroup _

/-- A document **closed by a bracket**: its last text is the bracket, and all it holds back is
printed before. -/
structure Closes (doc : Doc) (bracket : String) : Prop where
  ends : doc.EndsWith bracket
  settles : doc.Settles

/-- **The text of a closed document ends with its bracket**, at every width. -/
theorem Closes.isSuffix_typeset {doc : Doc} {bracket : String} (h : doc.Closes bracket)
    {o : LayoutOptions} {output : String} (houtput : doc.typeset o = .ok output) :
    bracket.toList <:+ output.toList := by
  have hnone : (resolve (flushAt o.indentWidth doc.suffixDepth) o.indentWidth .broken false doc
      []).pending = [] :=
    or_self_iff.mp (h.settles _ (flushAt_clears _ _) o.indentWidth .broken false []
      (by simp [AllPlain]) fun _ => rfl)
  obtain ⟨front, last, hpieces, hlast⟩ : ∃ front last, doc.pieces o = front ++ [.text last] ∧
      bracket.toList <:+ last.toList := by
    rw [pieces, layout, hnone, if_pos (by rfl)]
    exact h.ends _ _ _ _ _ _ _ (Layout.pieces_mayPrint _ _)
  rw [typeset] at houtput
  split_ifs at houtput
  cases houtput
  rw [Piece.toList_write, hpieces, List.flatMap_append, List.flatMap_singleton]
  exact hlast.trans (List.suffix_append _ _)

end Doc

end Reflow
