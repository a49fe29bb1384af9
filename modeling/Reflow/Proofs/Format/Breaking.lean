import Reflow.Format
import Reflow.Proofs.Markup.Building

/-!
# Proofs/Format/Breaking — a forced break reaches the root

The document of a node is built around all that its host answers with, so a break that the host
forces anywhere in a tree forces every group around it (`Node.willBreak_of_answers`).  An embedded
block is the exception: it is printed without its tags.
-/

namespace Reflow

/-- The host that ends every expression with **a line break**. -/
def Host.breaking : Host Unit Empty where
  expression e _ s := (.ok (Doc.text e.raw ++ Doc.line .hard), s)

namespace Node

variable {σ ε : Type}

/-- The **documents a host answers with** while a node is printed, in order. -/
def answers (host : Host σ ε) (position : Position) (o : LanguageOptions) (node : Node) (s : σ) :
    List Answer :=
  ((node.printing position o).exchanges host s).flatMap Exchange.answers

/-- **No path through the printer hides a break.**  The document of a node is built around all that
the host answers with, so every choice around an answer that is bound to break has a first variant
that is, and so is the whole document. -/
theorem willBreak_of_answers {host : Host σ ε} (hhost : host.DefaultComments) {position : Position}
    (hwhole : position.isEmbedded = false) (o : LanguageOptions) (node : Node) (s : σ) :
    let doc := ((node.printing position o).run host s).value
    doc.Carries (node.answers host position o s) ∧
      ((∃ answer ∈ node.answers host position o s, answer.doc.willBreak = true) →
        doc.willBreak = true) := by
  have hcarries : ((node.printing position o).run host s).value.Carries
      (node.answers host position o s) := by
    rw [answers, printing, hwhole]
    exact Node.builds hhost position.ancestors node s
  exact ⟨hcarries, hcarries.willBreak_eq_true⟩

/-- `<a>{x}</a>` -/
def bracedChild : Node :=
  markup (.element ⟨⟨"a", []⟩, none, [], false⟩ (some ⟨"a", []⟩)
    [container (.filled (.foreign ⟨.other, "x", []⟩))] [])

/-- The break behind the expression breaks the element. -/
theorem willBreak_of_answers_bracedChild :
    Host.breaking.DefaultComments ∧
      (∃ answer ∈ bracedChild.answers Host.breaking {} {} (), answer.doc.willBreak = true) ∧
      ((bracedChild.printing {} {}).run Host.breaking ()).value.willBreak = true := by
  have hbreak : ∃ answer ∈ bracedChild.answers Host.breaking {} {} (),
      answer.doc.willBreak = true :=
    ⟨.own (Doc.text "x" ++ Doc.line .hard), .tail _ (.tail _ (.head _)), rfl⟩
  exact ⟨fun _ _ _ => rfl, hbreak,
    (willBreak_of_answers (fun _ _ _ => rfl) rfl {} bracedChild ()).2 hbreak⟩

end Node

end Reflow
