import Reflow.Proofs.Format.Failures
import Reflow.Proofs.Host.Stateless
import Reflow.Proofs.Markup.Children

/-!
# Proofs/Format/Embedded — an embedded block is its children

Of markup that is embedded only the children are printed, so its tags cannot be told from the
document (`Node.print_embedded`).  Two bodies are printed with their tags all the same, wherever
they stand: one without content, and a template alone (`Node.print_embedded_showsTags`).
-/

namespace Reflow.Node

variable {σ ε : Type} {host : Host σ ε}

/-- Where a block is embedded. -/
abbrev embeddedIn (ancestors : Ancestors) : Position := ⟨ancestors, true⟩

/-- **An embedded block does not show its tags.**  Two elements with the same children, set out
between the tags, and the same comments are embedded as the same document, whatever their tags are
like, if neither or both are localized; the host may be in any state, as long as its answers do not
depend on it.  The document is what is printed for each of them, unless the host fails. -/
theorem print_embedded (hhost : host.IsStateless) (ancestors : Ancestors) (o : LanguageOptions)
    {children : List Node} (hout : areSetOut children = true) (comments : List Comment)
    {tag tag' : OpeningTag} (hname : tag.name.raw = "fbt" ↔ tag'.name.raw = "fbt")
    (closing closing' : Option Verbatim) (s s' : σ) :
    let node := markup (.element tag closing children comments)
    let node' := markup (.element tag' closing' children comments)
    ((node.printing (embeddedIn ancestors) o).run host s).value =
        ((node'.printing (embeddedIn ancestors) o).run host s').value ∧
      ∀ doc doc', (node.print host (embeddedIn ancestors) o s).1 = .ok doc →
        (node'.print host (embeddedIn ancestors) o s').1 = .ok doc' → doc = doc' := by
  intro node node'
  have hinside := (Dialogue.run_eq_of_isStateless hhost
    (Node.children o (.jsxElement :: ancestors) children) s s').1
  obtain ⟨hcontent, hplain⟩ := not_special_of_areSetOut
    (forall₂_isChild host o (.jsxElement :: ancestors) children s) hout
  have hlocalized : (tag.name.raw == "fbt") = (tag'.name.raw == "fbt") := by
    rw [Bool.eq_iff_iff, beq_iff_eq, beq_iff_eq, hname]
  have hdoc : ((node.printing (embeddedIn ancestors) o).run host s).value =
      ((node'.printing (embeddedIn ancestors) o).run host s').value := by
    simp only [node, node', printing, Node.document, Markup.document,
      Dialogue.value_bind_of_isStateless hhost]
    rw [← hinside, Shell.doc_embedded o hcontent hplain, Shell.doc_embedded o hcontent hplain]
    -- of the shell, only whether it is localized is left
    simp only [Shell.around, Shell.ofElement, if_true, hlocalized]
    exact (Dialogue.run_eq_of_isStateless hhost _ s s').1
  refine ⟨hdoc, fun doc doc' hprint hprint' => ?_⟩
  rw [← value_of_print hprint, ← value_of_print hprint', hdoc]

/-- `<p {...x}>` -/
def spreadingTag : OpeningTag := ⟨⟨"p", []⟩, none, [.spread (.foreign ⟨.other, "x", []⟩) []], false⟩

/-- `<br />` -/
def selfClosingTag : OpeningTag := ⟨⟨"br", []⟩, none, [], true⟩

/-- A text and a call, between the tags of a paragraph that spreads `x`, and
without a closing tag. -/
theorem print_embedded_textAndCall :
    let inside := [text "a ", container (.filled (.foreign ⟨.call, "f()", []⟩))]
    let node := markup (.element spreadingTag (some ⟨"p", []⟩) inside [])
    let node' := markup (.element selfClosingTag none inside [])
    (areSetOut inside = true ∧ (spreadingTag.name.raw = "fbt" ↔ selfClosingTag.name.raw = "fbt")) ∧
      ((node.printing (embeddedIn []) {}).run Host.verbatim ()).value =
        ((node'.printing (embeddedIn []) {}).run Host.verbatim ()).value ∧
      ∀ doc doc', (node.print Host.verbatim (embeddedIn []) {} ()).1 = .ok doc →
        (node'.print Host.verbatim (embeddedIn []) {} ()).1 = .ok doc' → doc = doc' :=
  have hname : spreadingTag.name.raw = "fbt" ↔ selfClosingTag.name.raw = "fbt" := by decide
  ⟨⟨rfl, hname⟩, print_embedded Host.isStateless_verbatim [] {} rfl [] hname _ _ () ()⟩

/-- A template alone is embedded **with the tags around it**, so that these can be told apart. -/
theorem print_embedded_showsTags :
    let inside := [container (.filled (.foreign ⟨.templateLiteral, "`x`", []⟩))]
    let node := markup (.element spreadingTag (some ⟨"p", []⟩) inside [])
    let node' := markup (.element selfClosingTag none inside [])
    (node.format Host.verbatim (embeddedIn []) {} ()).1 = .ok "<p {...x}>\x7b`x`\x7d</p>" ∧
      (node'.format Host.verbatim (embeddedIn []) {} ()).1 = .ok "<br />\x7b`x`\x7d" ∧
      (node.print Host.verbatim (embeddedIn []) {} ()).1 ≠
        (node'.print Host.verbatim (embeddedIn []) {} ()).1 := by
  refine ⟨rfl, rfl, fun heq => ?_⟩
  cases heq

end Reflow.Node
