import Reflow.Proofs.Format.Failures
import Reflow.Proofs.Host.Always
import Reflow.Proofs.Markup.Brackets

/-!
# Proofs/Format/Brackets — line comments in front of brackets

A line comment ends the line, so a bracket must not be printed in front of a comment that belongs
inside.  A safe bracket never is (`Node.isSuffix_format`); another one may be, and what was a
comment is then text behind the tag (`Node.format_leaks`).
-/

namespace Reflow

/-- The host that puts **a note** at the end of the line behind every expression. -/
def Host.noting : Host Unit Empty where
  expression e _ s := (.ok (Doc.text e.raw ++ Doc.lineSuffix (.text " // note")), s)

theorem Host.isCandid_noting : Host.noting.IsCandid where
  expression h := by
    cases h
    exact ⟨Nat.le_refl 1, fun hbreak => by cases hbreak⟩
  ownComments _ _ := rfl
  comments _ _ _ := rfl
  dangling _ _ _ := rfl

namespace Node

variable {σ ε : Type}

/-- **Nothing leaks behind a safe bracket.**  Wherever the node stands, its document is closed by
the bracket; printed by itself, its text ends with it. -/
theorem isSuffix_format {host : Host σ ε} (hhost : host.IsCandid) (position : Position)
    (o : Options) {node : Node} {bracket : String} (h : node.bracket? o.language = some bracket)
    (s : σ) : ((node.printing position o.language).run host s).value.Closes bracket ∧
      ∀ output, (node.format host position o s).1 = .ok output →
        bracket.toList <:+ output.toList := by
  have hcloses : ((node.printing position o.language).run host s).value.Closes bracket :=
    Node.closes hhost position.ancestors position.isEmbedded node h s
  exact ⟨hcloses, fun output hformat => hcloses.isSuffix_typeset (typeset_of_format hformat)⟩

/-- `<p {...x}>` -/
def spreadTag : Node :=
  openingTag ⟨⟨"p", []⟩, none, [.spread (.foreign ⟨.other, "x", []⟩) []], false⟩

/-- The note behind the expression is printed on a line before the bracket. -/
theorem isSuffix_format_spreadTag :
    spreadTag.bracket? {} = some ">" ∧
      (spreadTag.format Host.noting {} {} ()).1 = .ok "<p\n  {...x} // note\n>" ∧
      ">".toList <:+ "<p\n  {...x} // note\n>".toList :=
  ⟨rfl, rfl, (@isSuffix_format _ _ _ Host.isCandid_noting {} {} spreadTag ">" rfl ()).2 _ rfl⟩

/-! ## Brackets that are not safe -/

/-- `// c`, after something. -/
def aside : Comment := ⟨"// c", .line, .trailing⟩

/-- `<div>a</div // c⏎>` -/
def asideInClosing : Node :=
  markup (.element ⟨⟨"div", []⟩, none, [], false⟩ (some ⟨"div", [aside]⟩) [text "a"] [])

/-- `<p a // c⏎="x">` -/
def asideOnName : Node :=
  openingTag ⟨⟨"p", []⟩, none, [.valued ⟨"a", [aside]⟩ (.string "\"x\"") []], false⟩

/-- `{...x}` -/
def spreadChildAlone : Node := spreadChild (.foreign ⟨.other, "x", []⟩)

/-- A line comment **leaks** out of a closing tag, out of a tag that is kept on one line with its
only attribute, and out of the braces of what is spread. -/
theorem format_leaks :
    (asideInClosing.format Host.verbatim {} {} ()).1 = .ok "<div>\n  a\n</div> // c" ∧
      (asideOnName.format Host.verbatim {} {} ()).1 = .ok "<p a=\"x\"> // c" ∧
      (spreadChildAlone.format Host.noting {} {} ()).1 = .ok "{...x} // note" :=
  ⟨rfl, rfl, rfl⟩

end Node

end Reflow
