import Reflow.Proofs.Doc.Bracketed
import Reflow.Proofs.Format.Brackets
import Reflow.Proofs.Format.Failures
import Reflow.Proofs.Markup.Grammar

/-!
# Proofs/Format/Braces — braces hold what is held back inside

The braces around an expression end with the boundary of a line, so nothing is pending behind them
in whatever group they stand, and all that the expression holds back is printed inside, at ends of
lines (`Node.format_braces`).  This needs the host to put nothing into a choice that is left to the
width and ends a line on one side: there a comment that is held back before is lost
(`Node.format_braces_loses`).
-/

namespace Reflow

open Doc (AllPlain bracketed flushAt resolve)

/-- A text among the items is **spelled out**. -/
theorem Item.Spelled.mem {o : LayoutOptions} {items : List Item} {cs : List Char}
    (h : Spelled o items cs) {s : String} (hs : .text s ∈ items) {c : Char} (hc : c ∈ s.toList) :
    c ∈ cs := by
  induction h with
  | nil => cases hs
  | text s' _ ih =>
    obtain heq | hs := List.mem_cons.mp hs
    · exact List.mem_append_left _ (Item.text.inj heq ▸ hc)
    · exact List.mem_append_right _ (ih hs)
  | «break» columns _ ih =>
    obtain heq | hs := List.mem_cons.mp hs
    · cases heq
    · exact List.mem_append_right _ (ih hs)

variable {σ ε : Type} {host : Host σ ε} {o : LanguageOptions} {ancestors : Ancestors}

theorem Container.exists_braces_eq (container : Container) (ancestors : Ancestors) (inside : Doc) :
    ∃ front, container.braces ancestors inside = bracketed front "\x7d" := by
  rw [braces]
  split_ifs
  · exact ⟨[.text "\x7b", inside], rfl⟩
  · exact ⟨[.text "\x7b", .indent (Doc.line .orNil ++ inside), .line .orNil], rfl⟩

namespace Container

/-- Braces hold back **no deeper than what the host prints**, and one level for comments. -/
theorem suffixDepth_le_of_host (hcomments : host.DefaultComments)
    (hdangling : ∀ comments sameIndent s,
      (host.dangling comments sameIndent s).1 = Comment.dangling comments sameIndent)
    (hexpression : ∀ e ancestors s doc,
      (host.expression e ancestors s).1 = .ok doc → doc.suffixDepth ≤ 1)
    (ancestors : Ancestors) (container : Container) (s : σ) :
    ((container.document o ancestors).run host s).value.suffixDepth ≤ 1 := by
  refine Doc.Carries.suffixDepth_le (builds hcomments ancestors container s) ?_
  rintro (doc | doc) hmem
  · exact Dialogue.forall_own_mem_of_quiet (fun _ hnone => hnone.le.trans (Nat.zero_le 1)) hdangling
      hexpression _ s (Multiset.mem_coe.mp hmem)
  · exact fun hnone => absurd hnone Nat.one_ne_zero

/-- In braces **nothing gets lost** if that is so of what the host prints. -/
theorem lossless_of_host (hcomments : host.DefaultComments)
    (hdangling : ∀ comments sameIndent s,
      (host.dangling comments sameIndent s).1 = Comment.dangling comments sameIndent)
    (hexpression : ∀ e ancestors s doc, (host.expression e ancestors s).1 = .ok doc → doc.Lossless)
    (ancestors : Ancestors) (container : Container) (s : σ) :
    ((container.document o ancestors).run host s).value.Lossless := by
  let V : Vocabulary :=
    { written := fun _ => True
      style := fun _ => True
      child := fun _ => True
      own := Doc.Lossless }
  have hhost : host.IsRegular o V :=
    { expression := fun {e} _ ancestors s => Host.answer_expression_of
        (fun doc hdoc => .own (hexpression e ancestors s doc hdoc)) (.written trivial)
      comments := hcomments
      dangling := hdangling
      style := trivial }
  have hregular : ((container.document o ancestors).run host s).value.Regular V :=
    gathers_regular hhost ancestors container (fun _ _ => trivial) (fun _ _ _ _ => trivial) s
  exact hregular.lossless fun _ h => h

end Container

/-- The host that **notes something before** every expression, and ends a line before it in a group
that breaks. -/
def Host.notingBefore : Host Unit Empty where
  expression e _ s :=
    (.ok (.concat [.lineSuffix (.text " // c"),
      .group false (.ifBreak .suffixBoundary (.text e.raw))]), s)

namespace Node

/-- **Braces contain what is held back inside.**  In every group, and whatever is pending before,
nothing is pending behind the braces of an expression.  If the host's choices lose nothing, then all
that was pending, and after it all that is held back inside, is printed at ends of lines before the
closing brace, however the braces are set in a document and when they stand alone. -/
theorem format_braces (hcomments : host.DefaultComments)
    (hdangling : ∀ comments sameIndent s,
      (host.dangling comments sameIndent s).1 = Comment.dangling comments sameIndent)
    (hdepth : ∀ e ancestors s doc,
      (host.expression e ancestors s).1 = .ok doc → doc.suffixDepth ≤ 1)
    (position : Position) (o : Options) (hindent : 0 < o.layout.indentWidth)
    (braces : Container) (s : σ) {doc : Doc}
    (hprint : ((container braces).print host position o.language s).1 = .ok doc) :
    (∀ depth indentWidth state beforeBreak pending, AllPlain pending →
      (resolve (flushAt indentWidth depth) indentWidth state beforeBreak doc
        pending).pending = []) ∧
    ((∀ e ancestors s doc, (host.expression e ancestors s).1 = .ok doc → doc.Lossless) →
      (∀ depth indentWidth state beforeBreak pending, AllPlain pending →
        ∀ width mode indent rest column, ∃ items,
          ((resolve (flushAt indentWidth (depth + 1)) indentWidth state beforeBreak doc
            pending).layout.set width mode indent rest column).flatMap Piece.items =
              items ++ [.text "\x7d"] ∧
          Item.EndLines (pending ++ doc.raised (state.modeIn .broken)) items) ∧
      ∃ output items, ((container braces).format host position o s).1 = .ok output ∧
        Item.Spelled o.layout (items ++ [.text "\x7d"]) output.toList ∧
        Item.EndLines (doc.raised .broken) items) := by
  have hvalue : ((braces.document o.language position.ancestors).run host s).value = doc := by
    rw [← value_of_print hprint, printing, Node.document]
  obtain ⟨front, rfl⟩ : ∃ front, doc = bracketed front "\x7d" := by
    obtain ⟨inside, hinside⟩ : ∃ inside, _ = braces.braces position.ancestors inside :=
      Container.gathers_braces position.ancestors braces s
    rw [← hvalue, hinside]
    exact braces.exists_braces_eq position.ancestors inside
  have hshallow : (bracketed front "\x7d").suffixDepth ≤ 1 :=
    hvalue ▸ Container.suffixDepth_le_of_host hcomments hdangling hdepth position.ancestors braces s
  refine ⟨fun depth indentWidth state beforeBreak pending hp => Doc.pending_resolve_bracketed
    (Doc.flushAt_clears indentWidth depth) indentWidth state beforeBreak hshallow hp,
    fun hexpression => ?_⟩
  have hlossless : (bracketed front "\x7d").Lossless :=
    hvalue ▸ Container.lossless_of_host hcomments hdangling hexpression position.ancestors braces s
  obtain ⟨output, items, houtput, hspelled, hends⟩ :=
    Doc.exists_endLines_typeset o.layout hindent hlossless
  exact ⟨fun depth indentWidth state beforeBreak pending hp => Doc.exists_endLines_bracketed
    (Doc.flushAt_printsHeld indentWidth depth) indentWidth state beforeBreak hlossless hp,
    output, items, format_of_print hprint houtput, hspelled, hends⟩

/-- `{x}` -/
def bracedName : Container := .filled (.foreign ⟨.other, "x", []⟩)

/-- The note behind the expression ends its line before the brace. -/
theorem format_braces_bracedName :
    ((container bracedName).format Host.noting {} {} ()).1 = .ok "\x7b\n  x // note\n\x7d" ∧
      ∃ doc, ((container bracedName).print Host.noting {} {} ()).1 = .ok doc ∧
        doc.raised .broken = [.text " // note"] ∧
        (resolve (flushAt 2 1) 2 .undecided false doc [.text " // before"]).pending = [] ∧
        ∃ output items, ((container bracedName).format Host.noting {} {} ()).1 = .ok output ∧
          Item.Spelled {} (items ++ [.text "\x7d"]) output.toList ∧
          Item.EndLines (doc.raised .broken) items := by
  have hbraces := @format_braces _ _ Host.noting (fun _ _ _ => rfl) (fun _ _ _ => rfl)
    (by rintro _ _ _ _ ⟨⟩; exact Nat.le_refl 1) {} {} (by decide) bracedName () _ rfl
  refine ⟨rfl, _, rfl, rfl, hbraces.1 1 2 .undecided false _ ?_, (hbraces.2 ?_).2⟩
  · exact List.forall_mem_singleton.mpr rfl
  · rintro _ _ _ _ ⟨⟩
    exact .append (.text _) (.lineSuffix rfl)

/-- A choice that is left to the width and ends a line on one side **loses the comment** before it:
the side that is not printed takes it along. -/
theorem format_braces_loses :
    (∀ e ancestors s doc, (Host.notingBefore.expression e ancestors s).1 = .ok doc →
      doc.suffixDepth = 1 ∧ ∀ variants, ¬ (Doc.conditional variants).Within doc) ∧
    ∃ doc, ((container bracedName).print Host.notingBefore {} {} ()).1 = .ok doc ∧
      doc.raised .broken = [.text " // c"] ∧
      ((container bracedName).format Host.notingBefore {} {} ()).1 = .ok "\x7b\n  x\n\x7d" ∧
      ¬ ∃ items, Item.Spelled {} (items ++ [.text "\x7d"]) "\x7b\n  x\n\x7d".toList ∧
        Item.EndLines (doc.raised .broken) items := by
  refine ⟨?_, _, rfl, rfl, rfl, ?_⟩
  · rintro _ _ _ _ ⟨⟩
    refine ⟨rfl, fun variants h => ?_⟩
    cases h with
    | concat mem h =>
      obtain rfl | hmem := List.mem_cons.mp mem
      · cases h with
        | lineSuffix h => cases h
      · obtain rfl := List.mem_singleton.mp hmem
        cases h with
        | group _ h =>
          cases h with
          | broken _ h => cases h
          | flat _ h => cases h
  · rintro ⟨items, hspelled, hends⟩
    have hmem : Item.text " // c" ∈ items := hends.mem List.mem_cons_self List.mem_cons_self
    exact absurd (hspelled.mem (List.mem_append_left _ hmem) (c := '/') (by decide)) (by decide)

end Node

end Reflow
