import Reflow.Proofs.Doc.Agreement
import Reflow.Proofs.Format.Whitespace
import Reflow.Proofs.Markup.Inert

/-!
# Proofs/Format/Width — the print width never changes the content

Whatever a node is, it is formatted to the same texts in the same order at every width, and only the
whitespace around them differs (`Node.format_printWidth`): blanks, line breaks, and spaces that are
spelled out in one width and plain in another.
-/

namespace Reflow.Node

variable {σ ε : Type} {host : Host σ ε}

/-- **The print width never changes the content.**  At any two widths a node is formatted to the
same texts, set out with whitespace, and what is left without the whitespace is the same.  All the
variants its document offers have these texts in common, at every depth and with the comments that
are held back to the end of a line. -/
theorem format_printWidth (hhost : host.PrintsVerbatim) {position : Position}
    (hparens : position.ancestors.AddNoParens) (hblock : position.isEmbedded = false) (o : Options)
    (hindent : 0 < o.layout.indentWidth) {node : Node} (hnode : node.isInert = true)
    (width width' : Nat) (s : σ) :
    ∃ doc ts output output',
      (node.print host position o.language s).1 = .ok doc ∧
      (node.format host position { o with layout.printWidth := width } s).1 = .ok output ∧
      (node.format host position { o with layout.printWidth := width' } s).1 = .ok output' ∧
      Text.SpacedOut ts output.toList ∧ Text.SpacedOut ts output'.toList ∧
      Text.unspaced 0 output.toList = Text.unspaced 0 output'.toList ∧
      ∀ variants, (Doc.conditional variants).Within doc → ∀ a ∈ variants, ∀ b ∈ variants,
        a.texts true = b.texts true := by
  have hdocument : (node.printing position o.language).Always host Doc.IsSteady := by
    rw [printing, hblock]
    exact always_isSteady hhost hparens node hnode
  obtain ⟨doc, hsteady, hprint, hformat⟩ := exists_format_eq hdocument s
  obtain ⟨ts, hts⟩ :=
    Doc.exists_texts_pieces hsteady.agrees hsteady.tidy.chain o.layout.indentWidth
  -- the document is the same at every width, and only then is it typeset
  have hset (width : Nat) : ∃ output,
      (node.format host position { o with layout.printWidth := width } s).1 = .ok output ∧
      Text.SpacedOut ts output.toList ∧
      Text.unspaced 0 output.toList = ts.flatMap fun s => Text.unspaced 0 s.toList := by
    obtain ⟨hspaced, hunspaced⟩ := hts { o.layout with printWidth := width } rfl
    rw [← Piece.toList_write] at hspaced hunspaced
    refine ⟨_, hformat _ _ ?_, hspaced, hunspaced⟩
    rw [Doc.typeset, if_neg (by simpa using hindent.ne')]
  obtain ⟨output, houtput, hspaced, hunspaced⟩ := hset width
  obtain ⟨output', houtput', hspaced', hunspaced'⟩ := hset width'
  exact ⟨doc, ts, output, output', hprint, houtput, houtput', hspaced, hspaced',
    hunspaced.trans hunspaced'.symm, fun variants hwithin a ha b hb =>
      hsteady.agrees.texts_eq hwithin true ha hb⟩

/-- `<p>` with a line comment behind its name, a text, a space spelled out and a call. -/
def greeting : Node :=
  markup (.element ⟨⟨"p", [⟨"// greeting", .line, .trailing⟩]⟩, none, [], false⟩ (some ⟨"p", []⟩)
    [text "Hello there", container (.filled (.foreign ⟨.stringLiteral " ", "\" \"", []⟩)),
      container (.filled (.foreign ⟨.call, "f()", []⟩))] [])

/-- The greeting in eighty columns and in ten. -/
theorem format_printWidth_greeting :
    greeting.isInert = true ∧ ∃ doc ts output output',
      (greeting.print Host.verbatim {} {} ()).1 = .ok doc ∧
      (greeting.format Host.verbatim {} {} ()).1 = .ok output ∧
      (greeting.format Host.verbatim {} { layout.printWidth := 10 } ()).1 = .ok output' ∧
      Text.SpacedOut ts output.toList ∧ Text.SpacedOut ts output'.toList ∧
      Text.unspaced 0 output.toList = Text.unspaced 0 output'.toList ∧
      ∀ variants, (Doc.conditional variants).Within doc → ∀ a ∈ variants, ∀ b ∈ variants,
        a.texts true = b.texts true :=
  ⟨by decide, format_printWidth Host.printsVerbatim_verbatim Ancestors.addNoParens_nil rfl {}
    (by decide) (by decide) 80 10 ()⟩

end Reflow.Node
