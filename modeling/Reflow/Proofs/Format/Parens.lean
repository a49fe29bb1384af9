import Reflow.Proofs.Format.Failures
import Reflow.Proofs.Host.Always
import Reflow.Proofs.Markup.OneLine
import Reflow.Proofs.Markup.Parens

/-!
# Proofs/Format/Parens — parentheses around markup of several lines

Markup that is returned, assigned or passed on is printed in parentheses if it takes more than one
line, and without them if it does not (`Node.format_inParens`).  What it holds back is never printed
behind the second parenthesis: a line comment breaks the group, and the line before the parenthesis
takes it along.
-/

namespace Reflow

open Dialogue

variable {σ ε : Type} {host : Host σ ε} {o : LanguageOptions} {ancestors : Ancestors}

/-- A host that prints expressions as they are written **never fails**. -/
theorem Host.PrintsVerbatim.failures_run {α : Type} (h : host.PrintsVerbatim) (d : Dialogue α)
    (s : σ) : (d.run host s).failures = [] := by
  rw [Dialogue.failures_run, List.filterMap_eq_nil_iff]
  rintro ⟨s, q⟩ -
  cases q with
  | expression e ancestors => simp only [Host.failure?, h.expression]
  | parens | ownComments | comments | dangling => rfl

/-- So what it answers of its own is **candid**. -/
theorem Host.PrintsVerbatim.isCandid {d : Dialogue Doc} (h : host.PrintsVerbatim)
    (hd : d.Builds host) (s : σ) : (d.run host s).value.IsCandid := by
  refine (hd s).isCandid fun doc hmem => forall_own_mem_of_quiet
    (fun _ => Doc.isCandid_of_suffixDepth) h.dangling ?_ d s (Multiset.mem_coe.mp hmem)
  intro e ancestors s doc hdoc
  rw [h.expression, Except.ok.injEq] at hdoc
  exact hdoc ▸ Doc.isCandid_of_suffixDepth rfl

/-- In every vocabulary such a host **answers with what is written**. -/
theorem Host.PrintsVerbatim.isRegular {V : Vocabulary} (h : host.PrintsVerbatim)
    (hstyle : V.style (SpaceStyle.of o false)) : host.IsRegular o V where
  expression {e} hraw ancestors s := by
    refine Host.answer_expression_of (fun doc hdoc => ?_) (.written hraw)
    rw [h.expression, Except.ok.injEq] at hdoc
    exact hdoc ▸ .written hraw
  comments := h.comments
  dangling := h.dangling
  style := hstyle

/-- Under a parent that wants parentheses, markup is printed **in the group of parentheses**. -/
theorem Markup.gathers_around (hparens : ∀ ancestors s, (host.parens ancestors s).1 = false)
    {parent : Parent} (hparent : parent.suppressesParens = false) (markup : Markup) :
    (markup.document o (parent :: ancestors) false).Gathers host fun _ doc =>
      ∃ inner, doc = Parens.around false (Parens.alwaysBreaks (parent :: ancestors)) inner := by
  have haround (doc : Doc) : (Parens.document (parent :: ancestors) doc).Gathers host fun _ doc =>
      ∃ inner, doc = Parens.around false (Parens.alwaysBreaks (parent :: ancestors)) inner := by
    rw [Parens.document, hparent]
    refine gathers_bind (tells_question fun s => gathers_done ⟨doc, ?_⟩)
    exact congrArg (Parens.around · _ doc) (hparens (parent :: ancestors) s)
  have hsurrounded (comments : List Comment) (doc : Doc) :
      (surrounded (parent :: ancestors) comments doc).Gathers host fun _ doc =>
        ∃ inner, doc = Parens.around false (Parens.alwaysBreaks (parent :: ancestors)) inner :=
    gathers_bind_any fun _ => haround _
  cases markup with
  | element tag closing children comments =>
    rw [Markup.document]
    exact gathers_bind_any fun _ => gathers_bind_any fun _ => gathers_bind_any fun _ =>
      hsurrounded comments _
  | fragment openingComments closingComments children comments =>
    rw [Markup.document]
    exact gathers_bind_any fun _ => gathers_bind_any fun _ => gathers_bind_any fun _ =>
      hsurrounded comments _

namespace Node

/-- **Parentheses appear exactly around markup of several lines.**
Markup under a parent that wants parentheses, with no line break in what
is printed as it is written, is formatted as its texts on one line,
without a line break and without parentheses, or else stands in
parentheses on lines of their own. -/
theorem format_inParens (hhost : host.PrintsVerbatim)
    (hparens : ∀ ancestors s, (host.parens ancestors s).1 = false) {position : Position}
    {parent : Parent} {others : Ancestors} (hancestors : position.ancestors = parent :: others)
    (hparent : parent.suppressesParens = false) (hwhole : position.isEmbedded = false) (o : Options)
    (hindent : 0 < o.layout.indentWidth) {tree : Markup}
    (hwritten : ∀ s ∈ tree.written, '\n' ∉ s.toList) (s : σ) :
    ∃ inner output,
      ((markup tree).print host position o.language s).1 =
        .ok (Parens.around false (Parens.alwaysBreaks position.ancestors) inner) ∧
      ((markup tree).format host position o s).1 = .ok output ∧
      ('\n' ∉ output.toList ∧ output = String.join inner.flatTexts ∨
        Text.InParens o.layout.lineBreak output.toList) := by
  let V : Vocabulary :=
    { written := fun s => '\n' ∉ s.toList
      style := fun _ => True
      child := fun _ => True
      own := fun _ => False }
  have hdocument : (markup tree).printing position o.language =
      tree.document o.language (parent :: others) false := by
    rw [printing, hwhole, hancestors, Node.document]
  set doc := (((markup tree).printing position o.language).run host s).value with hdoc
  rw [hdocument] at hdoc
  have hregular : doc.Regular V := hdoc ▸ Markup.gathers_regular (hhost.isRegular trivial)
    (parent :: others) (V := V) trivial tree hwritten (fun _ _ _ _ => trivial) s
  have hcandid : doc.IsCandid := hdoc ▸ hhost.isCandid (Markup.builds hhost.comments _ tree) s
  obtain ⟨inner, hinner⟩ : ∃ inner, doc = _ :=
    hdoc ▸ Markup.gathers_around hparens hparent tree s
  rw [hinner] at hregular hcandid
  obtain ⟨output, houtput, hcases⟩ := Parens.typeset_around hindent hcandid
    (hregular.hasAlternatives fun _ hnone => hnone.elim)
  have hprint : ((markup tree).print host position o.language s).1 = .ok doc :=
    print_of_failures (hhost.failures_run _ s)
  rw [hinner] at hprint
  refine ⟨inner, output, hancestors ▸ hprint, format_of_print hprint houtput, ?_⟩
  obtain hflat | hwrapped := hcases
  · have htexts := hregular.forall_flatTexts (fun _ h => h) fun _ hnone => hnone.elim
    rw [Parens.flatTexts_around] at htexts
    refine .inl ⟨?_, hflat⟩
    rw [hflat, String.toList_join, List.mem_flatMap]
    rintro ⟨t, ht, hbreak⟩
    exact htexts t ht hbreak
  · exact .inr hwrapped

/-- `<p {...x}>a</p>` -/
def spreadParagraph : Markup :=
  .element ⟨⟨"p", []⟩, none, [.spread (.foreign ⟨.other, "x", []⟩) []], false⟩ (some ⟨"p", []⟩)
    [text "a"] []

/-- Behind `return`. -/
def returned : Position := { ancestors := [.returnStatement] }

/-- The paragraph behind `return`, in eighty columns and in twelve. -/
theorem format_inParens_spreadParagraph :
    (∀ s ∈ spreadParagraph.written, '\n' ∉ s.toList) ∧
      ((markup spreadParagraph).format Host.verbatim returned {} ()).1 = .ok "<p {...x}>a</p>" ∧
      ((markup spreadParagraph).format Host.verbatim returned { layout.printWidth := 12 } ()).1 =
        .ok "(\n  <p {...x}>\n    a\n  </p>\n)" ∧
      ∃ inner output,
        ((markup spreadParagraph).print Host.verbatim returned {} ()).1 =
          .ok (Parens.around false (Parens.alwaysBreaks returned.ancestors) inner) ∧
        ((markup spreadParagraph).format Host.verbatim returned { layout.printWidth := 12 } ()).1 =
          .ok output ∧
        ('\n' ∉ output.toList ∧ output = String.join inner.flatTexts ∨
          Text.InParens .lf output.toList) := by
  have hwritten : ∀ s ∈ spreadParagraph.written, '\n' ∉ s.toList := by decide
  refine ⟨hwritten, rfl, rfl, ?_⟩
  exact @format_inParens _ _ Host.verbatim Host.printsVerbatim_verbatim (fun _ _ => rfl) returned
    .returnStatement [] rfl rfl rfl { layout.printWidth := 12 }
      (by decide) spreadParagraph hwritten ()

end Node

end Reflow
