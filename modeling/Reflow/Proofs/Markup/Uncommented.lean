import Mathlib.Tactic.SplitIfs
import Reflow.Markup.Document
import Reflow.Proofs.Host.Always
import Reflow.Proofs.Syntax.Comments

/-!
# Proofs/Markup/Uncommented — hosts of trees without comments

What a host does with comments cannot be seen on a tree that has none, unless it adds something
where there are none.  So such a host may be taken for one that lays comments out as by default: in
a dialogue about the tree they come to the same (`Node.indifferent`).
-/

namespace Reflow

open Dialogue

variable {σ ε α β : Type} {host : Host σ ε} {o : LanguageOptions}

/-- The host with **comments as by default**, and in all else the same, down to the
states it is left in. -/
def Host.withDefaults (host : Host σ ε) : Host σ ε :=
  { host with
    comments := fun comments doc s =>
      (Comment.around comments doc, (host.comments comments doc s).2)
    dangling := fun comments sameIndent s =>
      (Comment.dangling comments sameIndent, (host.dangling comments sameIndent s).2) }

/-- A host that prints expressions as they are written **prints everything so** once comments are
left to the defaults. -/
theorem Host.printsVerbatim_withDefaults (h : ∀ e ancestors s,
    (host.expression e ancestors s).1 = .ok (.text e.raw)) : host.withDefaults.PrintsVerbatim :=
  ⟨h, fun _ _ _ => rfl, fun _ _ _ => rfl⟩

namespace Dialogue

/-- A dialogue that is **indifferent** to how the host lays comments out. -/
def Indifferent (host : Host σ ε) (d : Dialogue α) : Prop :=
  ∀ s, d.run host.withDefaults s = d.run host s

theorem indifferent_done (value : α) : (done value).Indifferent host := fun _ => rfl

/-- The states are the same as well, so what comes after **starts from the same one**. -/
theorem Indifferent.bind {d : Dialogue α} {f : α → Dialogue β} (h : d.Indifferent host)
    (hf : ∀ value, (f value).Indifferent host) : (d >>= f).Indifferent host := by
  intro s
  simp only [run_bind, h s, hf _ _]

/-- A question on which the two hosts **answer alike** and are left in the same state. -/
theorem indifferent_question {q : Question}
    (h : ∀ s, host.withDefaults.answer s q = host.answer s q) :
    (question q).Indifferent host := by
  intro s
  simp only [question, run, h s]

theorem indifferent_expression (e : ForeignExpression) (ancestors : Ancestors) :
    (question (.expression e ancestors)).Indifferent host :=
  indifferent_question fun _ => rfl

theorem indifferent_parens (ancestors : Ancestors) :
    (question (.parens ancestors)).Indifferent host :=
  indifferent_question fun _ => rfl

/-- No comments are laid out **as nothing** by either. -/
theorem indifferent_comments (hhost : host.AddsNothing) {comments : List Comment}
    (h : comments = []) (doc : Doc) : (question (.comments comments doc)).Indifferent host := by
  subst h
  refine indifferent_question fun s => ?_
  have hvalue : (host.comments [] doc s).1 = doc := hhost.comments doc s
  simp only [Host.answer, Host.withDefaults, hvalue]
  rfl

/-- Nor do the two differ over **dangling comments**, if there are none. -/
theorem indifferent_dangling (hhost : host.AddsNothing) {comments : List Comment}
    (h : comments = []) : (question (.dangling comments true)).Indifferent host := by
  subst h
  refine indifferent_question fun s => ?_
  have hvalue : (host.dangling [] true s).1 = .nil := hhost.dangling s
  simp only [Host.answer, Host.withDefaults, hvalue]
  rfl

end Dialogue

/-! ## Tags, braces and parentheses -/

/-- A name or type arguments **without comments**: what is handed to the host is the text alone. -/
theorem Verbatim.indifferent (hhost : host.AddsNothing) {text : Verbatim} (h : text.comments = []) :
    text.document.Indifferent host :=
  indifferent_comments hhost h _

theorem Verbatim.indifferent_optional (hhost : host.AddsNothing) {text : Option Verbatim}
    (h : optionalComments text = []) : (optionalDocument text).Indifferent host := by
  cases text with
  | none => exact indifferent_done _
  | some text => exact Verbatim.indifferent hhost h

theorem Tag.indifferent_closing (hhost : host.AddsNothing) {name : Verbatim}
    (h : name.comments = []) : (closingDocument name).Indifferent host :=
  (Verbatim.indifferent hhost h).bind fun _ => indifferent_done _

theorem Tag.indifferent_openingFragment (hhost : host.AddsNothing) {comments : List Comment}
    (h : comments = []) : (openingFragmentDocument comments).Indifferent host :=
  (indifferent_dangling hhost h).bind fun _ => indifferent_done _

theorem Tag.indifferent_closingFragment (hhost : host.AddsNothing) {comments : List Comment}
    (h : comments = []) : (closingFragmentDocument comments).Indifferent host :=
  (indifferent_dangling hhost h).bind fun _ => indifferent_done _

theorem Brace.indifferent_empty (hhost : host.AddsNothing) {comments : List Comment}
    (h : comments = []) : (emptyDocument comments).Indifferent host := by
  subst h
  exact (indifferent_dangling hhost rfl).bind fun _ => indifferent_done _

/-- Comments on the argument of a spread are the only reason to ask the host there, so without them
**nothing is asked**. -/
theorem Brace.indifferent_spread {argument : Expression} (h : argument.comments = [])
    (printed : Doc) : (spreadDocument argument printed).Indifferent host := by
  rw [spreadDocument, h]
  exact indifferent_done _

/-- Only comments are laid out differently, so the question whether **there are parentheses
already** has one answer. -/
theorem Parens.indifferent (ancestors : Ancestors) (markup : Doc) :
    (document ancestors markup).Indifferent host := by
  rw [document.eq_def]
  split
  · exact indifferent_done _
  · split_ifs
    · exact indifferent_done _
    · exact (indifferent_parens _).bind fun _ => indifferent_done _

theorem Markup.indifferent_closing (hhost : host.AddsNothing) {closing : Option Verbatim}
    (h : Verbatim.optionalComments closing = []) : (closingDocument closing).Indifferent host := by
  cases closing with
  | none => exact indifferent_done _
  | some name => exact (Tag.indifferent_closing hhost h).bind fun _ => indifferent_done _

theorem Markup.indifferent_surrounded (hhost : host.AddsNothing) (ancestors : Ancestors)
    {comments : List Comment} (h : comments = []) (doc : Doc) :
    (surrounded ancestors comments doc).Indifferent host :=
  (indifferent_comments hhost h doc).bind fun _ => Parens.indifferent ancestors _

/-! ## Trees

By recursion on the tree, one statement for each kind of node. -/

/-- Of an expression without any comments **its own are none** either. -/
theorem Expression.comments_eq_nil {expression : Expression} (h : expression.allComments = []) :
    expression.comments = [] := by
  cases expression with
  | foreign e => exact h
  | markup => exact (List.append_eq_nil_iff.mp h).1

mutual

/-- A foreign expression takes its comments with it to the host, so it is only **markup as an
expression** whose comments count. -/
theorem Expression.indifferent (hhost : host.AddsNothing) (ancestors : Ancestors)
    (expression : Expression) (h : expression.allComments = []) :
    (expression.document o ancestors).Indifferent host := by
  match expression with
  | .foreign e =>
    rw [Expression.document]
    exact indifferent_expression e ancestors
  | .markup node _ comments =>
    rw [Expression.allComments, List.append_eq_nil_iff] at h
    rw [Expression.document]
    exact (Node.indifferent hhost ancestors false node h.2).bind fun doc =>
      indifferent_comments hhost h.1 doc
termination_by structural expression

theorem Container.indifferent (hhost : host.AddsNothing) (ancestors : Ancestors)
    (container : Container) (h : container.allComments = []) :
    (container.document o ancestors).Indifferent host := by
  match container with
  | .empty comments =>
    rw [Container.document]
    exact (Brace.indifferent_empty hhost h).bind fun _ => indifferent_done _
  | .filled expression =>
    rw [Container.document]
    exact (Expression.indifferent hhost _ expression h).bind fun _ => indifferent_done _
termination_by structural container

theorem AttributeValue.indifferent (hhost : host.AddsNothing) (ancestors : Ancestors)
    (value : AttributeValue) (h : value.allComments = []) :
    (value.document o ancestors).Indifferent host := by
  match value with
  | .string raw =>
    rw [AttributeValue.document]
    exact indifferent_done _
  | .container container =>
    rw [AttributeValue.document]
    exact Container.indifferent hhost ancestors container h
  | .markup markup =>
    rw [AttributeValue.document]
    exact Markup.indifferent hhost ancestors false markup h
termination_by structural value

/-- The comments of an attribute are those **on its name, in its value and around it**. -/
theorem Attribute.indifferent (hhost : host.AddsNothing) (ancestors : Ancestors) (item : Attribute)
    (h : item.allComments = []) : (item.document o ancestors).Indifferent host := by
  match item with
  | .bare name comments =>
    rw [Attribute.allComments, List.append_eq_nil_iff] at h
    rw [Attribute.document]
    exact (Verbatim.indifferent hhost h.1).bind fun _ => indifferent_comments hhost h.2 _
  | .valued name value comments =>
    rw [Attribute.allComments, List.append_eq_nil_iff, List.append_eq_nil_iff] at h
    obtain ⟨⟨hname, hvalue⟩, hcomments⟩ := h
    rw [Attribute.document]
    exact (Verbatim.indifferent hhost hname).bind fun _ =>
      (AttributeValue.indifferent hhost _ value hvalue).bind fun _ =>
        indifferent_comments hhost hcomments _
  | .spread argument comments =>
    rw [Attribute.allComments, List.append_eq_nil_iff] at h
    rw [Attribute.document]
    exact (Expression.indifferent hhost _ argument h.1).bind fun _ =>
      (Brace.indifferent_spread (Expression.comments_eq_nil h.1) _).bind fun _ =>
        indifferent_comments hhost h.2 _
termination_by structural item

theorem Attribute.indifferent_all (hhost : host.AddsNothing) (ancestors : Ancestors)
    (items : List Attribute) (h : Attribute.commentsOfAll items = []) :
    (Attribute.documents o ancestors items).Indifferent host := by
  match items with
  | [] =>
    rw [Attribute.documents]
    exact indifferent_done _
  | first :: others =>
    rw [Attribute.commentsOfAll, List.append_eq_nil_iff] at h
    rw [Attribute.documents]
    exact (Attribute.indifferent hhost ancestors first h.1).bind fun _ =>
      (Attribute.indifferent_all hhost ancestors others h.2).bind fun _ => indifferent_done _
termination_by structural items

theorem OpeningTag.indifferent (hhost : host.AddsNothing) (ancestors : Ancestors) (tag : OpeningTag)
    (h : tag.allComments = []) : (tag.document o ancestors).Indifferent host := by
  match tag with
  | ⟨name, typeArguments, attributes, selfClosing⟩ =>
    rw [OpeningTag.allComments, List.append_eq_nil_iff, List.append_eq_nil_iff] at h
    obtain ⟨⟨hname, harguments⟩, hattributes⟩ := h
    rw [OpeningTag.document]
    exact (Verbatim.indifferent hhost hname).bind fun _ =>
      (Verbatim.indifferent_optional hhost harguments).bind fun _ =>
        (Attribute.indifferent_all hhost ancestors attributes hattributes).bind fun _ =>
          indifferent_done _
termination_by structural tag

/-- An element or a fragment, with the comments **of its two tags**, of its
children and around it. -/
theorem Markup.indifferent (hhost : host.AddsNothing) (ancestors : Ancestors) (isEmbedded : Bool)
    (markup : Markup) (h : markup.allComments = []) :
    (markup.document o ancestors isEmbedded).Indifferent host := by
  match markup with
  | .element tag closing children comments =>
    simp only [Markup.allComments, List.append_eq_nil_iff, and_assoc] at h
    obtain ⟨htag, hchildren, hclosing, hcomments⟩ := h
    rw [Markup.document]
    exact (OpeningTag.indifferent hhost _ tag htag).bind fun _ =>
      (Markup.indifferent_closing hhost hclosing).bind fun _ =>
        (Node.indifferent_all hhost _ children hchildren).bind fun _ =>
          Markup.indifferent_surrounded hhost ancestors hcomments _
  | .fragment opening closing children comments =>
    simp only [Markup.allComments, List.append_eq_nil_iff, and_assoc] at h
    obtain ⟨hopening, hchildren, hclosing, hcomments⟩ := h
    rw [Markup.document]
    exact (Tag.indifferent_openingFragment hhost hopening).bind fun _ =>
      (Tag.indifferent_closingFragment hhost hclosing).bind fun _ =>
        (Node.indifferent_all hhost _ children hchildren).bind fun _ =>
          Markup.indifferent_surrounded hhost ancestors hcomments _
termination_by structural markup

/-- The dialogue of a node **without comments** is indifferent to how the host lays comments out. -/
theorem Node.indifferent (hhost : host.AddsNothing) (ancestors : Ancestors) (isEmbedded : Bool)
    (node : Node) (h : node.allComments = []) :
    (node.document o ancestors isEmbedded).Indifferent host := by
  match node with
  | .text raw =>
    rw [Node.document]
    exact indifferent_done _
  | .markup markup =>
    rw [Node.document]
    exact Markup.indifferent hhost ancestors isEmbedded markup h
  | .container container =>
    rw [Node.document]
    exact Container.indifferent hhost ancestors container h
  | .spreadChild expression =>
    rw [Node.document]
    exact (Expression.indifferent hhost _ expression h).bind fun _ =>
      Brace.indifferent_spread (Expression.comments_eq_nil h) _
  | .attr item =>
    rw [Node.document]
    exact Attribute.indifferent hhost ancestors item h
  | .openingTag tag =>
    rw [Node.document]
    exact OpeningTag.indifferent hhost ancestors tag h
  | .closingTag name =>
    rw [Node.document]
    exact Tag.indifferent_closing hhost h
  | .openingFragment comments =>
    rw [Node.document]
    exact Tag.indifferent_openingFragment hhost h
  | .closingFragment comments =>
    rw [Node.document]
    exact Tag.indifferent_closingFragment hhost h
  | .emptyExpression comments =>
    rw [Node.document]
    exact Brace.indifferent_empty hhost h
termination_by structural node

/-- Children are printed **one after the other**, texts without a question. -/
theorem Node.indifferent_all (hhost : host.AddsNothing) (ancestors : Ancestors) (nodes : List Node)
    (h : Node.commentsOfAll nodes = []) : (Node.children o ancestors nodes).Indifferent host := by
  match nodes with
  | [] =>
    rw [Node.children]
    exact indifferent_done _
  | first :: others =>
    rw [Node.commentsOfAll, List.append_eq_nil_iff] at h
    rw [Node.children]
    have hothers (child : Child) :
        (do return child :: (← Node.children o ancestors others)).Indifferent host :=
      (Node.indifferent_all hhost ancestors others h.2).bind fun _ => indifferent_done _
    cases first.asText? with
    | some raw => exact (indifferent_done _).bind hothers
    | none =>
      rw [map_eq_pure_bind]
      exact ((Node.indifferent hhost ancestors false first h.1).bind fun _ =>
        indifferent_done _).bind hothers
termination_by structural nodes

end

end Reflow
