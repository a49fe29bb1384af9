import Mathlib.Data.List.Perm.Basic
import Mathlib.Tactic.SplitIfs
import Reflow.Markup.Document
import Reflow.Proofs.Host.Exchange
import Reflow.Proofs.Syntax.Comments

/-!
# Proofs/Markup/Asking — what is asked of the host

Tags, children and comments are printed in an order of their own, and a document may stand in two
layouts.  The host is asked for each foreign expression once all the same, in source order and under
its path; and each comment is handed to it once, with two exceptions by the place of an expression.
In braces an expression that is no markup is left to the host, comments and all; and what is spread
hands its comments over around the dots, which markup has done already.  `Node.covers` says both of
a tree.
-/

namespace Reflow

open Dialogue

/-! ## What a question is about -/

namespace Question

/-- The foreign expression that is **asked for**, under the ancestors it is asked for with. -/
def foreign? : Question → Option (ForeignExpression × Ancestors)
  | .expression e ancestors => some (e, ancestors)
  | .parens _ | .ownComments _ | .comments .. | .dangling .. => none

/-- The comments that are **handed to the host**. -/
def handed : Question → List Comment
  | .comments cs _ | .dangling cs _ => cs
  | .expression .. | .parens _ | .ownComments _ => []

end Question

/-- The parents that spread an expression. -/
def Parent.isSpread : Parent → Bool
  | jsxSpreadAttribute | jsxSpreadChild => true
  | _ => false

namespace Expression

/-- The comments that are **never handed over**: those of a foreign expression in braces. -/
def unheard : Expression × Ancestors → List Comment
  | (foreign e, .jsxExpressionContainer :: _) => e.comments
  | _ => []

/-- The comments that are handed over **twice**: those of markup that is spread. -/
def echoed : Expression × Ancestors → List Comment
  | (markup _ _ comments, parent :: _) => if parent.isSpread then comments else []
  | _ => []

end Expression

variable {σ ε α β : Type} {host : Host σ ε} {o : LanguageOptions} {ancestors : Ancestors}

/-- A host that **leaves the comments of expressions** to whoever prints what is around them. -/
def Host.LeavesComments (host : Host σ ε) : Prop := ∀ e s, (host.ownComments e s).1 = false

namespace Dialogue

/-- A dialogue that **covers** comments and expressions: it asks for exactly the foreign ones of
these expressions, in their order, and hands each of these comments over once, except for what the
places of the expressions change. -/
structure Covers (host : Host σ ε) (d : Dialogue α) (comments : List Comment)
    (expressions : List (Expression × Ancestors)) : Prop where
  asked : d.Tells host (fun exchange => exchange.question.foreign?.toList) fun asked _ =>
    asked = expressions.filterMap Expression.foreign?
  handed : host.LeavesComments →
    d.Tells host (fun exchange => exchange.question.handed) fun handed _ => ∀ c,
      handed.count c + (expressions.flatMap Expression.unheard).count c =
        comments.count c + (expressions.flatMap Expression.echoed).count c

variable {d : Dialogue α} {cs cs' : List Comment} {es es' : List (Expression × Ancestors)}

theorem covers_done (value : α) : (done value).Covers host [] [] :=
  ⟨tells_done rfl, fun _ => tells_done fun _ => rfl⟩

/-- A question about **anything but an expression**. -/
theorem covers_question {q : Question} (h : q.foreign? = none) :
    (question q).Covers host q.handed [] :=
  ⟨tells_question fun _ => by rw [h]; rfl, fun _ => tells_question fun _ _ => rfl⟩

/-- What is asked first **comes first**, and of the comments none gets lost. -/
theorem Covers.bind {f : α → Dialogue β} (h : d.Covers host cs es)
    (hf : ∀ value, (f value).Covers host cs' es') :
    (d >>= f).Covers host (cs ++ cs') (es ++ es') := by
  refine ⟨tells_bind (h.asked.imp fun asked value hasked => (hf value).asked.imp ?_),
    fun hleaves => tells_bind ((h.handed hleaves).imp fun handed value hhanded =>
      ((hf value).handed hleaves).imp fun handed' _ hhanded' c => ?_)⟩
  · intro asked' _ hasked'
    rw [hasked, hasked', List.filterMap_append]
  · have hfirst := hhanded c
    have hsecond := hhanded' c
    simp only [List.flatMap_append, List.count_append]
    omega

/-- What covers **nothing more** may follow. -/
theorem Covers.then {f : α → Dialogue β} (h : d.Covers host cs es)
    (hf : ∀ value, (f value).Covers host [] []) : (d >>= f).Covers host cs es := by
  have hbind := h.bind hf
  rwa [List.append_nil, List.append_nil] at hbind

/-- The order of the comments does not matter. -/
theorem Covers.perm (h : d.Covers host cs es) (hperm : cs.Perm cs') : d.Covers host cs' es :=
  ⟨h.asked, fun hleaves => (h.handed hleaves).imp fun _ _ hhanded c => by
    rw [hhanded c, hperm.count_eq]⟩

/-- **Markup used as an expression** is not asked for, and its comments may be handed over twice. -/
theorem Covers.markup (h : d.Covers host cs es) {node : Node} {raw : String}
    {comments : List Comment} {parent : Parent} {path : Ancestors}
    (hcs : cs.Perm (cs' ++ if parent.isSpread then comments else [])) :
    d.Covers host cs' ((.markup node raw comments, parent :: path) :: es) := by
  refine ⟨h.asked, fun hleaves => (h.handed hleaves).imp fun handed _ hhanded c => ?_⟩
  have hcount := hcs.count_eq c
  have hbalance := hhanded c
  simp only [List.flatMap_cons, Expression.unheard, Expression.echoed, List.nil_append,
    List.count_append] at hcount ⊢
  omega

/-- A foreign expression **in braces** is asked for, and its comments are left out. -/
theorem covers_braced (e : ForeignExpression) (path : Ancestors) :
    (question (.expression e (.jsxExpressionContainer :: path))).Covers host e.comments
      [(.foreign e, .jsxExpressionContainer :: path)] :=
  ⟨tells_question fun _ => rfl, fun _ => tells_question fun _ c => by
    simp [Question.handed, Expression.unheard, Expression.echoed]⟩

/-- A foreign expression that is **spread** is asked for; its comments come with the dots. -/
theorem covers_spread (e : ForeignExpression) {parent : Parent} (h : parent.isSpread = true)
    (path : Ancestors) :
    (question (.expression e (parent :: path))).Covers host [] [(.foreign e, parent :: path)] := by
  have hnone : Expression.unheard (.foreign e, parent :: path) = [] := by
    rw [Expression.unheard.eq_def]
    split
    · next heq =>
      cases heq
      cases h
    · rfl
  exact ⟨tells_question fun _ => rfl, fun _ => tells_question fun _ c => by
    simp [Question.handed, Expression.echoed, hnone]⟩

end Dialogue

/-! ## Tags, braces and parentheses -/

theorem Verbatim.covers (text : Verbatim) : text.document.Covers host text.comments [] :=
  covers_question rfl

theorem Verbatim.covers_optional (text : Option Verbatim) :
    (Verbatim.optionalDocument text).Covers host (Verbatim.optionalComments text) [] := by
  cases text with
  | none => exact covers_done _
  | some text => exact text.covers

namespace Tag

theorem covers_closing (name : Verbatim) :
    (closingDocument name).Covers host name.comments [] :=
  name.covers.then fun _ => covers_done _

theorem covers_openingFragment (comments : List Comment) :
    (openingFragmentDocument comments).Covers host comments [] :=
  (covers_question (q := .dangling comments true) rfl).then fun _ => covers_done _

theorem covers_closingFragment (comments : List Comment) :
    (closingFragmentDocument comments).Covers host comments [] :=
  (covers_question (q := .dangling comments true) rfl).then fun _ => covers_done _

end Tag

namespace Brace

theorem covers_empty (comments : List Comment) :
    (emptyDocument comments).Covers host comments [] :=
  (covers_question (q := .dangling comments _) rfl).then fun _ => covers_done _

/-- What is spread hands **its comments** over around the dots, unless the host prints them. -/
theorem covers_spread (argument : Expression) (printed : Doc) :
    (spreadDocument argument printed).Covers host argument.comments [] := by
  rw [spreadDocument]
  split_ifs with hnone
  · rw [List.isEmpty_iff.mp hnone]
    exact covers_done _
  have haround : (do return spread (commented (← question (.comments argument.comments
      (Doc.text "..." ++ printed))))).Covers host argument.comments [] :=
    (covers_question (q := .comments argument.comments _) rfl).then fun _ => covers_done _
  refine ⟨tells_bind (tells_question fun s => ?_),
    fun hleaves => tells_bind (tells_question fun s => ?_)⟩
  · split_ifs
    · exact tells_done rfl
    · exact haround.asked
  · have hanswer : (host.answer s (.ownComments argument)).value = false := hleaves argument s
    rw [hanswer]
    exact haround.handed hleaves

end Brace

theorem Parens.covers (ancestors : Ancestors) (markup : Doc) :
    (Parens.document ancestors markup).Covers host [] [] := by
  rw [Parens.document.eq_def]
  split
  · exact covers_done _
  · split_ifs
    · exact covers_done _
    · exact (covers_question (q := .parens _) rfl).then fun _ => covers_done _

namespace Markup

theorem covers_closing (closing : Option Verbatim) :
    (closingDocument closing).Covers host (Verbatim.optionalComments closing) [] := by
  cases closing with
  | none => exact covers_done _
  | some name => exact (Tag.covers_closing name).then fun _ => covers_done _

theorem covers_surrounded (ancestors : Ancestors) (comments : List Comment) (doc : Doc) :
    (surrounded ancestors comments doc).Covers host comments [] :=
  (covers_question (q := .comments comments doc) rfl).then fun commented =>
    Parens.covers ancestors commented

end Markup

/-! ## Children -/

namespace Node

/-- A child that is **text to its neighbours** has neither expressions nor comments: it is text, or
a space spelled out. -/
theorem eq_nil_of_asText? {node : Node} {raw : String} (h : node.asText? = some raw)
    (path : Ancestors) :
    node.allComments = [] ∧ (if node.isSpelledSpace then [] else node.expressions path) = [] := by
  rw [asText?.eq_def] at h
  split at h
  · exact ⟨rfl, rfl⟩
  · split_ifs at h with hspelled
    refine ⟨?_, if_pos hspelled⟩
    rw [Container.isSpelledSpace.eq_def] at hspelled
    split at hspelled
    · rfl
    · cases hspelled
  · cases h

theorem isSpelledSpace_eq_false {node : Node} (h : node.asText? = none) :
    node.isSpelledSpace = false := by
  rw [isSpelledSpace.eq_def]
  split
  · rw [asText?] at h
    split_ifs at h with hspelled
    exact Bool.eq_false_iff.mpr hspelled
  · rfl

end Node

/-! ## Trees

By recursion on the tree, one statement for each kind of node. -/

mutual

/-- In braces, or together with what spreads it, an expression **covers** its own. -/
theorem Expression.covers (expression : Expression) :
    (∀ path, (expression.document o (.jsxExpressionContainer :: path)).Covers host
      expression.allComments (expression.expressions (.jsxExpressionContainer :: path))) ∧
    ∀ parent path, parent.isSpread = true →
      (do Brace.spreadDocument expression (← expression.document o (parent :: path))).Covers host
        expression.allComments (expression.expressions (parent :: path)) := by
  match expression with
  | .foreign e =>
    refine ⟨fun path => ?_, fun parent path hspread => ?_⟩
    · rw [Expression.document, Expression.allComments, Expression.expressions]
      exact covers_braced e path
    · rw [Expression.document, Expression.allComments, Expression.expressions]
      exact (Dialogue.covers_spread e hspread path).bind fun printed =>
        Brace.covers_spread (.foreign e) printed
  | .markup node raw comments =>
    have hnode (path : Ancestors) : ((Expression.markup node raw comments).document o path).Covers
        host (node.allComments ++ comments) (node.expressions path) := by
      rw [Expression.document, ← List.append_nil (node.expressions path)]
      exact (Node.covers path false node).bind fun doc =>
        covers_question (q := .comments comments doc) rfl
    refine ⟨fun path => ?_, fun parent path hspread => ?_⟩
    · rw [Expression.allComments, Expression.expressions]
      refine (hnode _).markup ?_
      rw [if_neg (by decide), List.append_nil]
      exact List.perm_append_comm
    · rw [Expression.allComments, Expression.expressions]
      have hspreads := (hnode (parent :: path)).bind fun printed =>
        @Brace.covers_spread σ ε host (.markup node raw comments) printed
      rw [List.append_nil] at hspreads
      refine hspreads.markup ?_
      rw [if_pos hspread]
      exact List.perm_append_comm.append_right comments
termination_by structural expression

theorem Container.covers (ancestors : Ancestors) (container : Container) :
    (container.document o ancestors).Covers host container.allComments
      (container.expressions ancestors) := by
  match container with
  | .empty comments =>
    rw [Container.document, Container.allComments, Container.expressions]
    exact (Brace.covers_empty comments).then fun _ => covers_done _
  | .filled expression =>
    rw [Container.document, Container.allComments, Container.expressions]
    exact ((Expression.covers expression).1 ancestors).then fun _ => covers_done _
termination_by structural container

theorem AttributeValue.covers (ancestors : Ancestors) (value : AttributeValue) :
    (value.document o ancestors).Covers host value.allComments (value.expressions ancestors) := by
  match value with
  | .string raw =>
    rw [AttributeValue.document, AttributeValue.allComments, AttributeValue.expressions]
    exact covers_done _
  | .container container =>
    rw [AttributeValue.document, AttributeValue.allComments, AttributeValue.expressions]
    exact Container.covers ancestors container
  | .markup markup =>
    rw [AttributeValue.document, AttributeValue.allComments, AttributeValue.expressions]
    exact Markup.covers ancestors false markup
termination_by structural value

theorem Attribute.covers (ancestors : Ancestors) (item : Attribute) :
    (item.document o ancestors).Covers host item.allComments (item.expressions ancestors) := by
  match item with
  | .bare name comments =>
    rw [Attribute.document, Attribute.allComments, Attribute.expressions]
    exact name.covers.bind fun name => covers_question (q := .comments comments _) rfl
  | .valued name value comments =>
    rw [Attribute.document, Attribute.allComments, Attribute.expressions, List.append_assoc]
    refine name.covers.bind fun name => ?_
    rw [← List.append_nil (value.expressions _)]
    exact (AttributeValue.covers _ value).bind fun value =>
      covers_question (q := .comments comments _) rfl
  | .spread argument comments =>
    rw [Attribute.document, Attribute.allComments, Attribute.expressions, ← bind_assoc,
      ← List.append_nil (argument.expressions _)]
    exact ((Expression.covers argument).2 .jsxSpreadAttribute ancestors rfl).bind fun doc =>
      covers_question (q := .comments comments doc) rfl
termination_by structural item

theorem Attribute.covers_all (ancestors : Ancestors) (items : List Attribute) :
    (Attribute.documents o ancestors items).Covers host (Attribute.commentsOfAll items)
      (Attribute.allExpressions ancestors items) := by
  match items with
  | [] =>
    rw [Attribute.documents, Attribute.commentsOfAll, Attribute.allExpressions]
    exact covers_done _
  | first :: others =>
    rw [Attribute.documents, Attribute.commentsOfAll, Attribute.allExpressions]
    exact (Attribute.covers ancestors first).bind fun _ =>
      (Attribute.covers_all ancestors others).then fun _ => covers_done _
termination_by structural items

theorem OpeningTag.covers (ancestors : Ancestors) (tag : OpeningTag) :
    (tag.document o ancestors).Covers host tag.allComments (tag.expressions ancestors) := by
  match tag with
  | ⟨name, typeArguments, attributes, selfClosing⟩ =>
    rw [OpeningTag.document, OpeningTag.allComments, OpeningTag.expressions, List.append_assoc]
    exact name.covers.bind fun _ => (Verbatim.covers_optional typeArguments).bind fun _ =>
      (Attribute.covers_all ancestors attributes).then fun _ => covers_done _
termination_by structural tag

theorem Markup.covers (ancestors : Ancestors) (isEmbedded : Bool) (markup : Markup) :
    (markup.document o ancestors isEmbedded).Covers host markup.allComments
      (markup.expressions ancestors) := by
  match markup with
  | .element tag closing children comments =>
    rw [Markup.document, Markup.allComments, Markup.expressions]
    have helement := (OpeningTag.covers (.jsxElement :: ancestors) tag).bind fun opening =>
      (Markup.covers_closing closing).bind fun closing =>
      (Node.covers_all (.jsxElement :: ancestors) children).bind fun inside =>
      Markup.covers_surrounded ancestors comments
        ((Shell.ofElement tag opening closing).doc o isEmbedded inside)
    rw [List.nil_append, List.append_nil] at helement
    rw [List.append_assoc, List.append_assoc]
    exact helement.perm (List.perm_append_comm_assoc _ _ _ |>.append_left _)
  | .fragment openingComments closingComments children comments =>
    rw [Markup.document, Markup.allComments, Markup.expressions]
    have hfragment := (Tag.covers_openingFragment openingComments).bind fun opening =>
      (Tag.covers_closingFragment closingComments).bind fun closing =>
      (Node.covers_all (.jsxFragment :: ancestors) children).bind fun inside =>
      Markup.covers_surrounded ancestors comments
        ((Shell.ofFragment opening closing).doc o isEmbedded inside)
    rw [List.nil_append, List.nil_append, List.append_nil] at hfragment
    rw [List.append_assoc, List.append_assoc]
    exact hfragment.perm (List.perm_append_comm_assoc _ _ _ |>.append_left _)
termination_by structural markup

/-- The dialogue of a node covers **all its comments and expressions**. -/
theorem Node.covers (ancestors : Ancestors) (isEmbedded : Bool) (node : Node) :
    (node.document o ancestors isEmbedded).Covers host node.allComments
      (node.expressions ancestors) := by
  match node with
  | .text raw =>
    rw [Node.document, Node.allComments, Node.expressions]
    exact covers_done _
  | .markup markup =>
    rw [Node.document, Node.allComments, Node.expressions]
    exact Markup.covers ancestors isEmbedded markup
  | .container container =>
    rw [Node.document, Node.allComments, Node.expressions]
    exact Container.covers ancestors container
  | .spreadChild expression =>
    rw [Node.document, Node.allComments, Node.expressions]
    exact (Expression.covers expression).2 .jsxSpreadChild ancestors rfl
  | .attr item =>
    rw [Node.document, Node.allComments, Node.expressions]
    exact Attribute.covers ancestors item
  | .openingTag tag =>
    rw [Node.document, Node.allComments, Node.expressions]
    exact OpeningTag.covers ancestors tag
  | .closingTag name =>
    rw [Node.document, Node.allComments, Node.expressions]
    exact Tag.covers_closing name
  | .openingFragment comments =>
    rw [Node.document, Node.allComments, Node.expressions]
    exact Tag.covers_openingFragment comments
  | .closingFragment comments =>
    rw [Node.document, Node.allComments, Node.expressions]
    exact Tag.covers_closingFragment comments
  | .emptyExpression comments =>
    rw [Node.document, Node.allComments, Node.expressions]
    exact Brace.covers_empty comments
termination_by structural node

theorem Node.covers_all (ancestors : Ancestors) (nodes : List Node) :
    (Node.children o ancestors nodes).Covers host (Node.commentsOfAll nodes)
      (Node.allExpressions ancestors nodes) := by
  match nodes with
  | [] =>
    rw [Node.children, Node.commentsOfAll, Node.allExpressions]
    exact covers_done _
  | first :: others =>
    rw [Node.children, Node.commentsOfAll, Node.allExpressions]
    have hothers (child : Child) : (do return child :: (← Node.children o ancestors others)).Covers
        host (Node.commentsOfAll others) (Node.allExpressions ancestors others) :=
      (Node.covers_all ancestors others).then fun _ => covers_done _
    cases htext : first.asText? with
    | some raw =>
      obtain ⟨hcomments, hexpressions⟩ := Node.eq_nil_of_asText? htext ancestors
      rw [hcomments, hexpressions]
      exact (covers_done _).bind hothers
    | none =>
      rw [Node.isSpelledSpace_eq_false htext, map_eq_pure_bind]
      exact ((Node.covers ancestors false first).then fun _ => covers_done _).bind hothers
termination_by structural nodes

end

end Reflow
