import Reflow.Format
import Reflow.Proofs.Host.Always
import Reflow.Proofs.Markup.Asking

/-!
# Proofs/Format/Questions — what the host is asked for

Printing a node asks the host for its foreign expressions in source order, each once and under its
path (`Node.filterMap_foreign?_transcript`).  Its comments are handed over once each, except for
those of an expression in braces, which nobody prints, and of markup that is spread, which are
printed twice (`Node.handed_perm`).
-/

namespace Reflow.Node

variable {σ ε : Type}

/-- **Every foreign expression is asked for once**, in source order and under its true path:
what a host is asked to print, in any position and with any options, are the foreign
expressions of the node. -/
theorem filterMap_foreign?_transcript (host : Host σ ε) (position : Position) (o : LanguageOptions)
    (node : Node) (s : σ) :
    ((node.printing position o).transcript host s).filterMap Question.foreign? =
      node.foreignExpressions position.ancestors := by
  rw [List.filterMap_eq_flatMap_toList]
  exact Dialogue.Tells.transcript (fun q => q.foreign?.toList)
    (Node.covers position.ancestors position.isEmbedded node).asked s

/-- In `<a b={x} {...y}>{" "}<>{z}</></a>` the space is text. -/
example :
    (markup (.element ⟨⟨"a", []⟩, none,
        [.valued ⟨"b", []⟩ (.container (.filled (.foreign ⟨.other, "x", []⟩))) [],
          .spread (.foreign ⟨.other, "y", []⟩) []], false⟩ (some ⟨"a", []⟩)
        [container (.filled (.foreign ⟨.stringLiteral " ", "\" \"", []⟩)),
          markup (.fragment [] [] [container (.filled (.foreign ⟨.other, "z", []⟩))] [])]
        [])).foreignExpressions [.returnStatement] =
      [(⟨.other, "x", []⟩, [.jsxExpressionContainer, .jsxAttribute, .jsxElement, .returnStatement]),
        (⟨.other, "y", []⟩, [.jsxSpreadAttribute, .jsxElement, .returnStatement]),
        (⟨.other, "z", []⟩,
          [.jsxExpressionContainer, .jsxFragment, .jsxElement, .returnStatement])] := rfl

/-! ## Comments -/

/-- **What is handed over is all comments, but for two places**: together with the comments of
foreign expressions in braces it is the comments of the node together with those of markup that is
spread, each as often. -/
theorem handed_perm {host : Host σ ε} (hleaves : host.LeavesComments) (position : Position)
    (o : LanguageOptions) (node : Node) (s : σ) :
    (((node.printing position o).transcript host s).flatMap Question.handed ++
        (node.expressions position.ancestors).flatMap Expression.unheard).Perm
      (node.allComments ++ (node.expressions position.ancestors).flatMap Expression.echoed) := by
  rw [List.perm_iff_count]
  intro c
  rw [List.count_append, List.count_append]
  exact Dialogue.Tells.transcript Question.handed
    ((Node.covers position.ancestors position.isEmbedded node).handed hleaves) s c

/-- `/* why */`, before something. -/
def reason : Comment := ⟨"/* why */", .block, .leading⟩

/-- `// what`, after something. -/
def remark : Comment := ⟨"// what", .line, .trailing⟩

/-- `{/* why */ x}` -/
def commentInBraces : Node := container (.filled (.foreign ⟨.other, "x", [reason]⟩))

/-- `{.../* why */ <b />}` -/
def commentInSpread : Node :=
  spreadChild (.markup (markup (.element ⟨⟨"b", []⟩, none, [], true⟩ none [] [])) "<b />" [reason])

/-- Of the three comments of a fragment its own is handed over, the one in braces is not, and the
one that is spread comes twice. -/
theorem handed_perm_fragment :
    Host.verbatim.LeavesComments ∧
      ((((markup (.fragment [] [] [commentInBraces, commentInSpread] [remark])).printing {}
          {}).transcript Host.verbatim ()).flatMap Question.handed ++ [reason]).Perm
        ([reason, reason, remark] ++ [reason]) :=
  ⟨fun _ _ => rfl, handed_perm (fun _ _ => rfl) {} {} _ ()⟩

/-- So **not every comment is handed over once**: the one in braces never is, and the one that is
spread with markup is twice. -/
theorem not_handed_perm_allComments :
    ¬ (((commentInBraces.printing {} {}).transcript Host.verbatim ()).flatMap
        Question.handed).Perm commentInBraces.allComments ∧
      ¬ (((commentInSpread.printing {} {}).transcript Host.verbatim ()).flatMap
        Question.handed).Perm commentInSpread.allComments :=
  ⟨fun h => absurd h.length_eq (by decide), fun h => absurd h.length_eq (by decide)⟩

end Reflow.Node
