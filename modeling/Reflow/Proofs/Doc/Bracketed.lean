import Reflow.Proofs.Doc.Closing
import Reflow.Proofs.Doc.Raising

/-!
# Proofs/Doc/Bracketed — a boundary before a bracket

In front of a bracket with a boundary before it nothing is left pending, in whatever group it stands
(`Doc.pending_resolve_bracketed`).  If nothing gets lost inside, all that is held back there, and
all that was pending before, is printed at ends of lines in front of the bracket
(`Doc.exists_endLines_bracketed`).
-/

namespace Reflow.Doc

/-- A group that ends with a **boundary and a bracket behind it**. -/
def bracketed (front : List Doc) (bracket : String) : Doc :=
  grouped (concat (front ++ [suffixBoundary, text bracket]))

variable {flush : Flush} {front pending : List Doc} {bracket : String}

/-- It holds back **as deep as what is in front**. -/
theorem suffixDepth_bracketed_le_iff {n : Nat} :
    (bracketed front bracket).suffixDepth ≤ n ↔ maxSuffixDepth front ≤ n := by
  change maxSuffixDepth (front ++ [suffixBoundary, text bracket]) ≤ n ↔ _
  rw [maxSuffixDepth_le_iff, maxSuffixDepth_le_iff, List.forall_mem_append]
  exact and_iff_left (by simp [suffixDepth])

/-- If nothing gets lost in it, **nothing gets lost in front**. -/
theorem Lossless.forall_front (h : (bracketed front bracket).Lossless) :
    ∀ doc ∈ front, doc.Lossless := by
  cases h with
  | group _ h =>
    cases h with
    | concat h => exact fun doc hdoc => h doc (List.mem_append_left _ hdoc)

/-- In any group nothing is pending **behind the boundary**. -/
theorem pending_resolve_bracketed (hflush : flush.Clears) (indentWidth : Nat) (state : GroupState)
    (beforeBreak : Bool) (h : (bracketed front bracket).suffixDepth ≤ 1) (hp : AllPlain pending) :
    (resolve flush indentWidth state beforeBreak (bracketed front bracket) pending).pending =
      [] := by
  obtain ⟨next, hnext, heq⟩ := exists_resolveAll_append hflush indentWidth
    (innerState state (concat (front ++ [suffixBoundary, text bracket])).willBreak)
    (suffixDepth_bracketed_le_iff.mp h) [suffixBoundary, text bracket] hp
  exact heq.trans (pending_boundary hflush hnext.plain)

theorem resolveAll_bracketed_follows (hflush : flush.PrintsHeld) (indentWidth : Nat)
    (state : GroupState) (h : ∀ doc ∈ front, doc.Lossless)
    (hstate : anyWillBreak front = true → state ≠ .undecided) (bracket : String)
    (hp : AllPlain pending) :
    (resolveAll flush indentWidth state (front ++ [suffixBoundary, text bracket]) pending).Follows
      pending fun _ events => ∃ before, events = before ++ [.boundary, .text bracket] ∧
        before.filterMap Event.suffix? = allRaised (state.modeIn .broken) front := by
  induction front generalizing pending with
  | nil =>
    have hboundary := resolveBoundary_follows hflush hp
    have htext : Resolved.Follows
        ⟨.seq (.text bracket) .nil, (resolveBoundary flush pending).pending⟩
        (resolveBoundary flush pending).pending fun _ events => events = [.text bracket] :=
      ⟨hboundary.plain, fun _ _ _ _ _ => ⟨_, rfl, rfl, rfl⟩⟩
    refine (hboundary.seq htext).imp ?_
    rintro _ _ ⟨_, _, rfl, rfl, rfl⟩
    exact ⟨[], rfl, rfl⟩
  | cons doc front ih =>
    obtain ⟨hdoc, hfront⟩ := List.forall_mem_cons.mp h
    rw [anyWillBreak, Bool.or_eq_true, or_imp] at hstate
    have hhere := resolve_raises hflush indentWidth state
      (nextIsBreak state (front ++ [suffixBoundary, text bracket])) doc hdoc hstate.1 hp
    refine (Resolved.Follows.seq hhere (ih hfront hstate.2 hhere.plain)).imp ?_
    rintro _ _ ⟨xs, _, hxs, ⟨before, rfl, hbefore⟩, rfl⟩
    exact ⟨xs ++ before, by rw [List.append_assoc], by
      rw [List.filterMap_append, hxs, hbefore]; rfl⟩

/-- The boundary and the bracket **hold nothing back**. -/
theorem raised_bracketed (mode : Mode) (front : List Doc) (bracket : String) :
    (bracketed front bracket).raised mode = allRaised mode front := by
  change allRaised mode (front ++ [suffixBoundary, text bracket]) = allRaised mode front
  induction front with
  | nil => rfl
  | cons doc front ih => rw [List.cons_append, allRaised, allRaised, ih]

/-- What is pending, and what is held back inside, is printed **at ends of lines before the
bracket**. -/
theorem exists_endLines_bracketed (hflush : flush.PrintsHeld) (indentWidth : Nat)
    (state : GroupState) (beforeBreak : Bool) (h : (bracketed front bracket).Lossless)
    (hp : AllPlain pending) (width : Nat) (mode : Mode) (indent : Nat) (rest : Layout.Rest)
    (column : Nat) :
    ∃ items, ((resolve flush indentWidth state beforeBreak (bracketed front bracket)
        pending).layout.set width mode indent rest column).flatMap Piece.items =
          items ++ [.text bracket] ∧
      Item.EndLines (pending ++ (bracketed front bracket).raised (state.modeIn .broken)) items := by
  set contents := concat (front ++ [suffixBoundary, text bracket]) with hcontents
  have hbound (hbreak : anyWillBreak front = true) : contents.willBreak = true := by
    rw [anyWillBreak_eq_any] at hbreak
    rw [hcontents, willBreak_concat, List.any_append, hbreak, Bool.true_or]
  have hfollows := (resolveAll_bracketed_follows hflush indentWidth
    (innerState state contents.willBreak) h.forall_front
    (fun hbreak => innerState_ne_undecided state (hbound hbreak)) bracket hp).inGroup
    (innerState state contents.willBreak)
  obtain ⟨_, ⟨before, rfl, hbefore⟩, hset, -⟩ := hfollows.set width mode indent rest column
  obtain ⟨items, hemitted, hends, -⟩ := Event.endLines_boundary pending before bracket
  refine ⟨items, hset.trans hemitted, ?_⟩
  rwa [raised_bracketed, ← modeIn_innerState state contents.willBreak, ← hbefore]

/-- So it is when the group **is typeset** by itself. -/
theorem exists_endLines_typeset (o : LayoutOptions) (hindent : 0 < o.indentWidth)
    (h : (bracketed front bracket).Lossless) :
    ∃ output items, (bracketed front bracket).typeset o = .ok output ∧
      Item.Spelled o (items ++ [.text bracket]) output.toList ∧
      Item.EndLines ((bracketed front bracket).raised .broken) items := by
  have hflush := flushAt_printsHeld o.indentWidth 0
  have hdepth := h.suffixDepth_le
  have hpending :=
    pending_resolve_bracketed hflush.clears o.indentWidth .broken false hdepth allPlain_nil
  have hitems :=
    exists_endLines_bracketed hflush o.indentWidth .broken false h allPlain_nil o.printWidth
    .broken 0 [] 0
  rw [resolve_eq_alone o.indentWidth hdepth] at hpending hitems
  obtain ⟨items, hset, hends⟩ := hitems
  have hpieces : ((bracketed front bracket).pieces o).flatMap Piece.items =
      items ++ [.text bracket] := by
    rw [pieces, layout_eq_finish o.indentWidth hdepth, Flush.finish, hpending, if_pos (by rfl)]
    exact hset
  refine ⟨Piece.write o ((bracketed front bracket).pieces o), items, ?_, ?_, hends⟩
  · rw [typeset, if_neg hindent.ne']
  · rw [← hpieces, Piece.toList_write]
    exact Item.spelled_pieces _ _

end Reflow.Doc
