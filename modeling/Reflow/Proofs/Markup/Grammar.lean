import Reflow.Proofs.Markup.Brackets
import Reflow.Proofs.Markup.Regular
import Reflow.Proofs.Syntax.Written

/-!
# Proofs/Markup/Grammar — every node is printed as a regular document

What a host answers with goes into documents as it is, and comments and children are put around and
into them by the printer itself.  So whatever the tree, its document is regular, if all that is
written in the tree is known and so is what the host prints (`Node.gathers_regular`).
-/

namespace Reflow

open Dialogue
open Doc (AllRegular)

/-- A host that prints expressions **as regular documents** if their text is known, and leaves
comments to the defaults. -/
structure Host.IsRegular {σ ε : Type} (host : Host σ ε) (o : LanguageOptions) (V : Vocabulary) :
    Prop where
  expression {e : ForeignExpression} (h : V.written e.raw) (ancestors : Ancestors) (s : σ) :
    (host.answer s (.expression e ancestors)).value.Regular V
  comments : host.DefaultComments
  dangling (comments : List Comment) (sameIndent : Bool) (s : σ) :
    (host.dangling comments sameIndent s).1 = Comment.dangling comments sameIndent
  style : V.style (SpaceStyle.of o false)

/-- Nodes whose documents are **known** as those of children. -/
def Host.Knows {σ ε : Type} (host : Host σ ε) (o : LanguageOptions) (V : Vocabulary)
    (nodes : List Node) : Prop :=
  ∀ child ∈ nodes, ∀ ancestors s, V.child ((child.document o ancestors false).run host s).value

variable {σ ε : Type} {host : Host σ ε} {o : LanguageOptions} {V : Vocabulary}
  {ancestors : Ancestors}

/-! ## Names, comments and what surrounds -/

/-- Comments whose texts are known, **around** a regular document. -/
theorem gathers_regular_comments (hhost : host.IsRegular o V) {comments : List Comment}
    (h : ∀ s ∈ comments.map Comment.raw, V.written s) {doc : Doc} (hdoc : doc.Regular V) :
    (question (.comments comments doc)).Gathers host fun _ result => result.Regular V := by
  refine (gathers_comments_eq hhost.comments comments doc).imp ?_
  rintro _ _ rfl
  exact Comment.regular_around h hdoc

/-- Known comments with **nothing to stand beside** are a regular document by themselves. -/
theorem gathers_regular_dangling (hhost : host.IsRegular o V) {comments : List Comment}
    (h : ∀ s ∈ comments.map Comment.raw, V.written s) (sameIndent : Bool) :
    (question (.dangling comments sameIndent)).Gathers host fun _ result => result.Regular V := by
  refine tells_question fun s => ?_
  have hanswer : (host.answer s (.dangling comments sameIndent)).value =
      Comment.dangling comments sameIndent := hhost.dangling comments sameIndent s
  rw [hanswer]
  exact Comment.regular_dangling h sameIndent

/-- A name or type arguments: the text **as it is written**, and the comments around it. -/
theorem Verbatim.gathers_regular (hhost : host.IsRegular o V) {text : Verbatim}
    (h : ∀ s ∈ text.written, V.written s) :
    text.document.Gathers host fun _ doc => doc.Regular V := by
  obtain ⟨hraw, hcomments⟩ := List.forall_mem_cons.mp h
  exact gathers_regular_comments hhost hcomments (.written hraw)

theorem Verbatim.gathers_regular_optional (hhost : host.IsRegular o V) {text : Option Verbatim}
    (h : ∀ s ∈ optionalWritten text, V.written s) :
    (optionalDocument text).Gathers host fun _ doc => doc.Regular V := by
  cases text with
  | none => exact gathers_done .nil
  | some text => exact Verbatim.gathers_regular hhost h

theorem Tag.gathers_regular_closing (hhost : host.IsRegular o V) {name : Verbatim}
    (h : ∀ s ∈ name.written, V.written s) :
    (closingDocument name).Gathers host fun _ doc => doc.Regular V :=
  gathers_bind (Gathers.imp (Verbatim.gathers_regular hhost h) fun _ _ hname =>
    gathers_done (regular_closing hname))

theorem Tag.gathers_regular_fragment (hhost : host.IsRegular o V) {comments : List Comment}
    (h : ∀ s ∈ comments.map Comment.raw, V.written s) :
    ((openingFragmentDocument comments).Gathers host fun _ doc => doc.Regular V) ∧
      (closingFragmentDocument comments).Gathers host fun _ doc => doc.Regular V :=
  ⟨gathers_bind ((gathers_regular_dangling hhost h true).imp fun _ _ hinside =>
      gathers_done (regular_fragment (by decide) false comments hinside)),
    gathers_bind ((gathers_regular_dangling hhost h true).imp fun _ _ hinside =>
      gathers_done (regular_fragment (by decide) true comments hinside))⟩

theorem Brace.gathers_regular_empty (hhost : host.IsRegular o V) {comments : List Comment}
    (h : ∀ s ∈ comments.map Comment.raw, V.written s) :
    (emptyDocument comments).Gathers host fun _ doc => doc.Regular V :=
  gathers_bind ((gathers_regular_dangling hhost h _).imp fun _ _ hinside =>
    gathers_done (regular_onlyComments _ hinside))

/-- What is spread stands behind three dots, and comments on it **around the dots as well**, unless
the host says that it has printed them. -/
theorem Brace.gathers_regular_spread (hhost : host.IsRegular o V) {argument : Expression}
    (h : ∀ s ∈ argument.comments.map Comment.raw, V.written s) {printed : Doc}
    (hprinted : printed.Regular V) :
    (spreadDocument argument printed).Gathers host fun _ doc => doc.Regular V := by
  have hdots : (Doc.text "..." ++ printed).Regular V := .append (.mark (by decide)) hprinted
  rw [spreadDocument]
  split_ifs
  · exact gathers_done (regular_spread hdots)
  · refine gathers_bind (gathers_ownComments fun printsOwn => ?_)
    split_ifs
    · exact gathers_done (regular_spread hdots)
    · exact gathers_bind ((gathers_regular_comments hhost h hdots).imp fun _ _ hdoc =>
        gathers_done (regular_spread (regular_commented hdoc)))

/-- Whatever the host says of the parentheses, the group of them is **regular either way**. -/
theorem Parens.gathers_regular (ancestors : Ancestors) {markup : Doc} (h : markup.Regular V) :
    (document ancestors markup).Gathers host fun _ doc => doc.Regular V := by
  rw [document.eq_def]
  split
  · exact gathers_done h
  · split_ifs
    · exact gathers_done h
    · exact gathers_bind (gathers_parens fun alreadyThere =>
        gathers_done (regular_around alreadyThere _ h))

theorem Markup.gathers_regular_closing (hhost : host.IsRegular o V) {closing : Option Verbatim}
    (h : ∀ s ∈ Verbatim.optionalWritten closing, V.written s) :
    (closingDocument closing).Gathers host fun _ closing => (closing.getD .nil).Regular V := by
  cases closing with
  | none => exact gathers_done .nil
  | some name =>
    exact gathers_bind (Gathers.imp (Tag.gathers_regular_closing hhost h) fun _ _ hclosing =>
      gathers_done hclosing)

theorem Markup.gathers_regular_surrounded (hhost : host.IsRegular o V) {comments : List Comment}
    (h : ∀ s ∈ comments.map Comment.raw, V.written s) {doc : Doc} (hdoc : doc.Regular V) :
    (surrounded ancestors comments doc).Gathers host fun _ doc => doc.Regular V :=
  gathers_bind ((gathers_regular_comments hhost h hdoc).imp fun _ _ hdoc =>
    Parens.gathers_regular ancestors hdoc)

/-! ## Trees

By recursion on the tree, one statement for each kind of node. -/

/-- The comments attached to an expression are **among what is written** in it. -/
theorem Expression.written_comments (expression : Expression) :
    ∀ s ∈ expression.comments.map Comment.raw, s ∈ expression.written := by
  intro s hs
  cases expression with
  | «foreign» e =>
    rw [Expression.written]
    exact List.mem_cons_of_mem _ hs
  | markup node raw comments =>
    rw [Expression.written]
    exact List.mem_append_right _ hs

mutual

/-- For a foreign expression **the host answers**; markup is printed here, and the
comments on it go around. -/
theorem Expression.gathers_regular (hhost : host.IsRegular o V) (ancestors : Ancestors)
    (expression : Expression) (h : ∀ s ∈ expression.written, V.written s)
    (hc : host.Knows o V expression.descendants) :
    (expression.document o ancestors).Gathers host fun _ doc => doc.Regular V := by
  match expression with
  | .foreign e =>
    rw [Expression.written] at h
    rw [Expression.document]
    exact tells_question fun s => hhost.expression (h _ List.mem_cons_self) ancestors s
  | .markup node raw comments =>
    rw [Expression.written, List.forall_mem_append] at h
    rw [Expression.descendants] at hc
    rw [Expression.document]
    exact gathers_bind (Gathers.imp (Node.gathers_regular hhost ancestors hhost.style node h.1 hc)
      fun _ _ hdoc => gathers_regular_comments hhost h.2 hdoc)
termination_by structural expression

theorem Container.gathers_regular (hhost : host.IsRegular o V) (ancestors : Ancestors)
    (container : Container) (h : ∀ s ∈ container.written, V.written s)
    (hc : host.Knows o V container.descendants) :
    (container.document o ancestors).Gathers host fun _ doc => doc.Regular V := by
  match container with
  | .empty comments =>
    rw [Container.written] at h
    rw [Container.document]
    exact gathers_bind (Gathers.imp (Brace.gathers_regular_empty hhost h) fun _ _ hinside =>
      gathers_done (Container.regular_braces _ ancestors hinside))
  | .filled expression =>
    rw [Container.written] at h
    rw [Container.descendants] at hc
    rw [Container.document]
    exact gathers_bind (Gathers.imp (Expression.gathers_regular hhost _ expression h hc)
      fun _ _ hinside => gathers_done (Container.regular_braces _ ancestors hinside))
termination_by structural container

theorem AttributeValue.gathers_regular (hhost : host.IsRegular o V) (ancestors : Ancestors)
    (value : AttributeValue) (h : ∀ s ∈ value.written, V.written s)
    (hc : host.Knows o V value.descendants) :
    (value.document o ancestors).Gathers host fun _ doc => doc.Regular V := by
  match value with
  | .string raw =>
    rw [AttributeValue.written] at h
    rw [AttributeValue.document]
    exact gathers_done (.string o.jsxQuotes (h raw (List.mem_singleton_self raw)))
  | .container container =>
    rw [AttributeValue.written] at h
    rw [AttributeValue.descendants] at hc
    rw [AttributeValue.document]
    exact Container.gathers_regular hhost ancestors container h hc
  | .markup markup =>
    rw [AttributeValue.written] at h
    rw [AttributeValue.descendants] at hc
    rw [AttributeValue.document]
    exact Markup.gathers_regular hhost ancestors hhost.style markup h hc
termination_by structural value

/-- An attribute in each of its three forms.  The comments on the argument of a spread are **printed
at the dots**. -/
theorem Attribute.gathers_regular (hhost : host.IsRegular o V) (ancestors : Ancestors)
    (item : Attribute) (h : ∀ s ∈ item.written, V.written s)
    (hc : host.Knows o V item.descendants) :
    (item.document o ancestors).Gathers host fun _ doc => doc.Regular V := by
  match item with
  | .bare name comments =>
    rw [Attribute.written, List.forall_mem_append] at h
    rw [Attribute.document]
    exact gathers_bind (Gathers.imp (Verbatim.gathers_regular hhost h.1) fun _ _ hname =>
      gathers_regular_comments hhost h.2 (.concat (AllRegular.cons hname .nil)))
  | .valued name value comments =>
    rw [Attribute.written, List.forall_mem_append, List.forall_mem_append] at h
    obtain ⟨hname, hvalue, hcomments⟩ := h
    rw [Attribute.descendants] at hc
    rw [Attribute.document]
    refine gathers_bind (Gathers.imp (Verbatim.gathers_regular hhost hname) fun _ _ hname => ?_)
    exact gathers_bind (Gathers.imp (AttributeValue.gathers_regular hhost _ value hvalue hc)
      fun _ _ hvalue => gathers_regular_comments hhost hcomments (Tag.regular_valued hname hvalue))
  | .spread argument comments =>
    rw [Attribute.written, List.forall_mem_append] at h
    obtain ⟨hargument, hcomments⟩ := h
    rw [Attribute.descendants] at hc
    rw [Attribute.document]
    refine gathers_bind (Gathers.imp (Expression.gathers_regular hhost _ argument hargument hc)
      fun _ _ hprinted => ?_)
    exact gathers_bind ((Brace.gathers_regular_spread hhost
      (fun s hs => hargument s (argument.written_comments s hs)) hprinted).imp fun _ _ hdoc =>
        gathers_regular_comments hhost hcomments hdoc)
termination_by structural item

theorem Attribute.gathers_allRegular (hhost : host.IsRegular o V) (ancestors : Ancestors)
    (items : List Attribute) (h : ∀ s ∈ Attribute.allWritten items, V.written s)
    (hc : host.Knows o V (Attribute.allDescendants items)) :
    (Attribute.documents o ancestors items).Gathers host fun _ docs => AllRegular V docs := by
  match items with
  | [] =>
    rw [Attribute.documents]
    exact gathers_done .nil
  | first :: others =>
    rw [Attribute.allWritten, List.forall_mem_append] at h
    rw [Attribute.allDescendants, Host.Knows, List.forall_mem_append] at hc
    rw [Attribute.documents]
    refine gathers_bind (Gathers.imp (Attribute.gathers_regular hhost ancestors first h.1 hc.1)
      fun _ _ hdoc => ?_)
    exact gathers_bind ((Attribute.gathers_allRegular hhost ancestors others h.2 hc.2).imp
      fun _ _ hdocs => gathers_done (.cons hdoc hdocs))
termination_by structural items

/-- The parts of an opening tag are printed in their order, **each by itself**, before
its layout is chosen. -/
theorem OpeningTag.gathers_regular (hhost : host.IsRegular o V) (ancestors : Ancestors)
    (tag : OpeningTag) (h : ∀ s ∈ tag.written, V.written s) (hc : host.Knows o V tag.descendants) :
    (tag.document o ancestors).Gathers host fun _ doc => doc.Regular V := by
  match tag with
  | ⟨name, typeArguments, attributes, selfClosing⟩ =>
    rw [OpeningTag.written, List.forall_mem_append, List.forall_mem_append] at h
    obtain ⟨hname, harguments, hattributes⟩ := h
    rw [OpeningTag.descendants] at hc
    rw [OpeningTag.document]
    refine gathers_bind (Gathers.imp (Verbatim.gathers_regular hhost hname) fun _ _ hname => ?_)
    refine gathers_bind (Gathers.imp (Verbatim.gathers_regular_optional hhost harguments)
      fun _ _ harguments => ?_)
    exact gathers_bind ((Attribute.gathers_allRegular hhost ancestors attributes hattributes hc).imp
      fun _ _ hdocs => gathers_done (OpeningTag.regular_doc hname harguments hdocs))
termination_by structural tag

/-- Only the name `fbt` localizes the text of an element, and a name is **among what is written**,
so the vocabulary knows it if the element does. -/
theorem Markup.gathers_regular (hhost : host.IsRegular o V) (ancestors : Ancestors)
    {isEmbedded : Bool} (hstyle : V.style (SpaceStyle.of o isEmbedded)) (markup : Markup)
    (h : ∀ s ∈ markup.written, V.written s) (hc : host.Knows o V markup.descendants) :
    (markup.document o ancestors isEmbedded).Gathers host fun _ doc => doc.Regular V := by
  match markup with
  | .element tag closing children comments =>
    rw [Markup.written, List.forall_mem_append, List.forall_mem_append, List.forall_mem_append] at h
    obtain ⟨htag, hclosing, hchildren, hcomments⟩ := h
    rw [Markup.descendants, Host.Knows, List.forall_mem_append] at hc
    have hlocalized (opening : Doc) (closing : Option Doc) :
        (Shell.ofElement tag opening closing).isLocalized = true → V.written "fbt" := by
      intro hfbt
      have hname : tag.name.raw = "fbt" := by simpa [Shell.ofElement] using hfbt
      rw [← hname]
      refine htag _ ?_
      rcases tag with ⟨name, _, _, _⟩
      rw [OpeningTag.written]
      exact List.mem_append_left _ List.mem_cons_self
    rw [Markup.document]
    refine gathers_bind (Gathers.imp (OpeningTag.gathers_regular hhost _ tag htag hc.1)
      fun _ opening hopening => ?_)
    refine gathers_bind ((Markup.gathers_regular_closing hhost hclosing).imp
      fun _ closing hclosing => ?_)
    refine gathers_bind ((Node.gathers_allRegular hhost _ children hchildren hc.2).imp
      fun _ _ hinside => ?_)
    exact Markup.gathers_regular_surrounded hhost hcomments
      (Shell.regular_doc hstyle (hlocalized opening closing) hopening hclosing hinside)
  | .fragment openingComments closingComments children comments =>
    rw [Markup.written, List.forall_mem_append, List.forall_mem_append, List.forall_mem_append] at h
    obtain ⟨hopening, hclosing, hchildren, hcomments⟩ := h
    rw [Markup.descendants] at hc
    rw [Markup.document]
    refine gathers_bind (Gathers.imp (Tag.gathers_regular_fragment hhost hopening).1
      fun _ opening hopening => ?_)
    refine gathers_bind (Gathers.imp (Tag.gathers_regular_fragment hhost hclosing).2
      fun _ closing hclosing => ?_)
    refine gathers_bind ((Node.gathers_allRegular hhost _ children hchildren hc).imp
      fun _ _ hinside => ?_)
    exact Markup.gathers_regular_surrounded hhost hcomments
      ((Shell.ofFragment opening closing).regular_doc hstyle nofun hopening hclosing hinside)
termination_by structural markup

/-- A node is printed as a **regular document**. -/
theorem Node.gathers_regular (hhost : host.IsRegular o V) (ancestors : Ancestors)
    {isEmbedded : Bool} (hstyle : V.style (SpaceStyle.of o isEmbedded)) (node : Node)
    (h : ∀ s ∈ node.written, V.written s) (hc : host.Knows o V node.descendants) :
    (node.document o ancestors isEmbedded).Gathers host fun _ doc => doc.Regular V := by
  match node with
  | .text raw =>
    rw [Node.written] at h
    rw [Node.document]
    exact gathers_done (.written (h raw (List.mem_singleton_self raw)))
  | .markup markup =>
    rw [Node.written] at h
    rw [Node.descendants] at hc
    rw [Node.document]
    exact Markup.gathers_regular hhost ancestors hstyle markup h hc
  | .container container =>
    rw [Node.written] at h
    rw [Node.descendants] at hc
    rw [Node.document]
    exact Container.gathers_regular hhost ancestors container h hc
  | .spreadChild expression =>
    rw [Node.written] at h
    rw [Node.descendants] at hc
    rw [Node.document]
    exact gathers_bind (Gathers.imp (Expression.gathers_regular hhost _ expression h hc)
      fun _ _ hprinted => Brace.gathers_regular_spread hhost
        (fun s hs => h s (expression.written_comments s hs)) hprinted)
  | .attr item =>
    rw [Node.written] at h
    rw [Node.descendants] at hc
    rw [Node.document]
    exact Attribute.gathers_regular hhost ancestors item h hc
  | .openingTag tag =>
    rw [Node.written] at h
    rw [Node.descendants] at hc
    rw [Node.document]
    exact OpeningTag.gathers_regular hhost ancestors tag h hc
  | .closingTag name =>
    rw [Node.written] at h
    rw [Node.document]
    exact Tag.gathers_regular_closing hhost h
  | .openingFragment comments =>
    rw [Node.written] at h
    rw [Node.document]
    exact (Tag.gathers_regular_fragment hhost h).1
  | .closingFragment comments =>
    rw [Node.written] at h
    rw [Node.document]
    exact (Tag.gathers_regular_fragment hhost h).2
  | .emptyExpression comments =>
    rw [Node.written] at h
    rw [Node.document]
    exact Brace.gathers_regular_empty hhost h
termination_by structural node

theorem Node.gathers_allRegular (hhost : host.IsRegular o V) (ancestors : Ancestors)
    (nodes : List Node) (h : ∀ s ∈ Node.allWritten nodes, V.written s)
    (hc : host.Knows o V (Node.allDescendants nodes)) :
    (Node.children o ancestors nodes).Gathers host fun _ children =>
      ∀ child ∈ children, child.IsRegular V := by
  match nodes with
  | [] =>
    rw [Node.children]
    exact gathers_done nofun
  | first :: others =>
    rw [Node.allWritten, List.forall_mem_append] at h
    obtain ⟨hfirst, hothers⟩ := h
    rw [Node.allDescendants, Host.Knows, List.forall_mem_append] at hc
    obtain ⟨hknown, hlast⟩ := hc
    have hlater := Node.gathers_allRegular hhost ancestors others hothers hlast
    rw [Node.children]
    cases htext : first.asText? with
    | some raw =>
      refine gathers_bind (gathers_done ?_)
      exact gathers_bind (hlater.imp fun _ _ hchildren => gathers_done
        (List.forall_mem_cons.mpr ⟨nofun, hchildren⟩))
    | none =>
      rw [htext] at hfirst hknown
      obtain ⟨hchild, hinside⟩ := List.forall_mem_cons.mp hknown
      dsimp only
      rw [map_eq_pure_bind]
      have hdoc : (first.document o ancestors false).Gathers host fun _ doc =>
          doc.Regular V ∧ V.child doc := fun s =>
        ⟨Node.gathers_regular hhost ancestors hhost.style first hfirst hinside s,
          hchild ancestors s⟩
      refine gathers_bind (gathers_bind (Gathers.imp hdoc fun _ doc hdoc => gathers_done ?_))
      refine gathers_bind (hlater.imp fun _ _ hchildren => gathers_done
        (List.forall_mem_cons.mpr ⟨?_, hchildren⟩))
      rintro _ _ ⟨⟩
      exact hdoc
termination_by structural nodes

end

end Reflow
