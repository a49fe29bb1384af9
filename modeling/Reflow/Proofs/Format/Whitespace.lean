import Reflow.Format
import Reflow.Proofs.Markup.Plain

/-!
# Proofs/Format/Whitespace — whitespace keeps its meaning

A plain element is formatted so that what stands between its tags reads as its children did, at
every width (`Node.format_reads`): the same words and children, and a space between two of them,
before the first or after the last, exactly where there was one.
-/

namespace Reflow.Node

open Dialogue

variable {σ ε : Type} {host : Host σ ε}

/-- A node whose dialogue always ends well **is formatted**, in any layout from
the same document. -/
theorem exists_format_eq {position : Position} {o : LanguageOptions} {node : Node} {P : Doc → Prop}
    (h : (node.printing position o).Always host P) (s : σ) :
    ∃ doc, P doc ∧ (node.print host position o s).1 = .ok doc ∧
      ∀ (layout : LayoutOptions) (output : String), doc.typeset layout = .ok output →
        (node.format host position ⟨layout, o⟩ s).1 = .ok output := by
  obtain ⟨hfailures, hvalue⟩ := h s
  refine ⟨_, hvalue, by simp [print, hfailures], fun layout output houtput => ?_⟩
  simp [format, print, hfailures, houtput]

/-- **Formatting keeps the meaning of whitespace.**  What is printed between the tags of a plain
element, read back by someone who knows the texts of its children, reads as the children do. -/
theorem format_reads (hhost : host.AddsNothing) {position : Position}
    (hparens : position.ancestors.AddNoParens) (hblock : position.isEmbedded = false) (o : Options)
    (hindent : 0 < o.layout.indentWidth) (name : String) (selfClosing : Bool)
    (closing : Option String) {nodes : List Node} {lexemes : List Lexeme}
    (hplain : Plain host o.language position.ancestors false nodes lexemes) (s : σ) :
    ∃ body, ((markup (.plain name selfClosing closing nodes)).format host position o s).1 =
        .ok (String.ofList
          (OpeningTag.chars o.language name selfClosing ++ (body ++ Tag.closingChars closing))) ∧
      Lexeme.read (Lexeme.scan 0 (Lexeme.children lexemes) body) = Lexeme.read lexemes := by
  have hdocument := @Markup.always_plain _ _ host o.language _ hhost hparens name selfClosing
    position.isEmbedded closing _ _ (hplain.always_children hhost)
  obtain ⟨doc, ⟨children, hw, rfl⟩, -, hformat⟩ :=
    @exists_format_eq _ _ _ _ _ (markup (.plain name selfClosing closing nodes)) _ hdocument s
  obtain ⟨hopening, hclosing⟩ := Shell.suffixDepth_plain o.language name selfClosing closing
  rw [hblock] at hformat
  obtain ⟨output, houtput, hprints⟩ := Doc.exists_typeset_eq o.layout _
    (Shell.suffixDepth_doc hopening hclosing hw.suffixDepth_eq_zero) hindent
  obtain ⟨body, hbody, hread⟩ := Shell.read_body hw
    (Shell.printsTags_plain o.language name selfClosing closing) hprints
  refine ⟨body, ?_, hread⟩
  rw [hformat o.layout output houtput, ← hbody, String.ofList_toList]

/-- `<p>`, with a text over two lines, a space spelled out and a call: the line break after `there`
is read away, the space before the call is not. -/
theorem format_reads_greeting :
    ∃ body, ((markup (.plain "p" false (some "p")
        [text "Hello\nthere\n",
          container (.filled (.foreign ⟨.stringLiteral " ", "\" \"", []⟩)),
          container (.filled (.foreign ⟨.call, "f()", []⟩))])).format Host.verbatim {} {} ()).1 =
        .ok (String.ofList (['<', 'p', '>'] ++ (body ++ ['<', '/', 'p', '>']))) ∧
      Lexeme.read (Lexeme.scan 0 ["{f()}".toList] body) =
        ⟨[(false, .word "Hello".toList), (true, .word "there".toList),
          (true, .child "{f()}".toList)], false⟩ :=
  format_reads Host.addsNothing_verbatim Ancestors.addNoParens_nil rfl {} (by decide) "p" false
    (some "p")
    (.text (by decide) (by simp [Lexeme.IsPlain])
      (.space rfl (.expression rfl (fun _ => rfl) (by decide) (by rintro (_ | _) <;> decide)
        (.nil false)))) ()

end Reflow.Node
