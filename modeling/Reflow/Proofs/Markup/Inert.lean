import Reflow.Markup.Document
import Reflow.Proofs.Host.Always
import Reflow.Proofs.Markup.Plain
import Reflow.Proofs.Markup.Variants

/-!
# Proofs/Markup/Inert — trees without quotes and braces of their own

Whatever its shape, a tree is printed as a steady document (`Node.always_isSteady`) if nothing that
is written out in it has quotes or braces, attribute strings and type arguments apart, and if no
markup is spread, which alone would put parentheses into the output.
-/

namespace Reflow

open Dialogue

/-! ## What is written out -/

/-- Text that is printed as it is written, **without quotes and braces**. -/
def Verbatim.isInert (text : Verbatim) : Bool :=
  Text.isInert text.raw && text.comments.all Comment.isInert

/-- An expression that is no markup. -/
def Expression.isForeign : Expression → Bool
  | foreign _ => true
  | markup .. => false

mutual

/-- Whether an expression is written **without quotes and braces**, as everything else below. -/
def Expression.isInert : Expression → Bool
  | .foreign e => Text.isInert e.raw && e.comments.all Comment.isInert
  | .markup node _ comments => node.isInert && comments.all Comment.isInert

def Container.isInert : Container → Bool
  | .empty comments => comments.all Comment.isInert
  | .filled expression => expression.isInert

/-- The string of an attribute may be anything. -/
def AttributeValue.isInert : AttributeValue → Bool
  | .string _ => true
  | .container container => container.isInert
  | .markup markup => markup.isInert

/-- What is spread must not be markup. -/
def Attribute.isInert : Attribute → Bool
  | .bare name comments => name.isInert && comments.all Comment.isInert
  | .valued name value comments =>
    name.isInert && (value.isInert && comments.all Comment.isInert)
  | .spread argument comments =>
    argument.isForeign && (argument.isInert && comments.all Comment.isInert)

def Attribute.allInert : List Attribute → Bool
  | [] => true
  | first :: others => first.isInert && Attribute.allInert others

/-- The type arguments of a tag may be anything, but for the comments attached to them. -/
def OpeningTag.isInert : OpeningTag → Bool
  | ⟨name, typeArguments, attributes, _⟩ =>
    name.isInert && ((typeArguments.all fun arguments => arguments.comments.all Comment.isInert) &&
      Attribute.allInert attributes)

def Markup.isInert : Markup → Bool
  | .element tag closing children comments =>
    tag.isInert && (closing.all Verbatim.isInert &&
      (Node.allInert children && comments.all Comment.isInert))
  | .fragment opening closing children comments =>
    opening.all Comment.isInert && (closing.all Comment.isInert &&
      (Node.allInert children && comments.all Comment.isInert))

/-- Whether a node is written **without quotes and braces** of its own. -/
def Node.isInert : Node → Bool
  | .text raw => Text.isInert raw
  | .markup markup => markup.isInert
  | .container container => container.isInert
  | .spreadChild expression => expression.isForeign && expression.isInert
  | .attr item => item.isInert
  | .openingTag tag => tag.isInert
  | .closingTag name => name.isInert
  | .openingFragment comments | .closingFragment comments | .emptyExpression comments =>
    comments.all Comment.isInert

/-- Among children a space spelled out is the text it stands for. -/
def Node.allInert : List Node → Bool
  | [] => true
  | first :: others =>
    (match first.asText? with
      | some raw => Text.isInert raw
      | none => first.isInert) && Node.allInert others

end

variable {σ ε : Type} {host : Host σ ε} {o : LanguageOptions} {ancestors : Ancestors}

/-! ## Names, tags and comments -/

theorem Verbatim.always_isCalm (hhost : host.PrintsVerbatim) {text : Verbatim}
    (h : text.isInert = true) : text.document.Always host Doc.IsCalm := by
  obtain ⟨hraw, hcomments⟩ := Bool.and_eq_true_iff.mp h
  refine (hhost.always_comments _ _).imp ?_
  rintro _ rfl
  exact Comment.isCalm_around hcomments (Doc.isCalm_text hraw)

/-- Type arguments are **one text**, which may be anything. -/
theorem Verbatim.always_holdsOne (hhost : host.PrintsVerbatim) {arguments : Option Verbatim}
    (h : (arguments.all fun arguments => arguments.comments.all Comment.isInert) = true) :
    (Verbatim.optionalDocument arguments).Always host Doc.HoldsOne := by
  rcases arguments with _ | text
  · exact always_done Doc.holdsOne_nil
  · refine (hhost.always_comments _ _).imp ?_
    rintro _ rfl
    exact Comment.holdsOne_around h (Doc.holdsOne_text text.raw)

theorem Tag.always_isCalm_closing (hhost : host.PrintsVerbatim) {name : Verbatim}
    (h : name.isInert = true) : (Tag.closingDocument name).Always host Doc.IsCalm :=
  always_bind ((Verbatim.always_isCalm hhost h).imp fun _ hname =>
    always_done (Tag.isCalm_closing hname))

theorem Tag.always_isCalm_fragment (hhost : host.PrintsVerbatim) {comments : List Comment}
    (h : comments.all Comment.isInert = true) :
    (Tag.openingFragmentDocument comments).Always host Doc.IsCalm ∧
      (Tag.closingFragmentDocument comments).Always host Doc.IsCalm := by
  have hdangling := Comment.isCalm_dangling h true
  constructor
  · refine always_bind ((hhost.always_dangling comments true).imp ?_)
    rintro _ rfl
    exact always_done (Tag.isCalm_fragment rfl false comments hdangling)
  · refine always_bind ((hhost.always_dangling comments true).imp ?_)
    rintro _ rfl
    exact always_done (Tag.isCalm_fragment rfl true comments hdangling)

theorem Brace.always_isCalm_empty (hhost : host.PrintsVerbatim) {comments : List Comment}
    (h : comments.all Comment.isInert = true) :
    (Brace.emptyDocument comments).Always host Doc.IsCalm := by
  refine always_bind ((hhost.always_dangling comments _).imp ?_)
  rintro _ rfl
  exact always_done (Brace.isCalm_onlyComments _ (Comment.isCalm_dangling h _))

/-- A document **between comments** is steady if it is. -/
theorem always_isSteady_comments (hhost : host.PrintsVerbatim) {comments : List Comment}
    (h : comments.all Comment.isInert = true) {doc : Doc} (hdoc : doc.IsSteady) :
    (question (.comments comments doc)).Always host Doc.IsSteady := by
  refine (hhost.always_comments comments doc).imp ?_
  rintro _ rfl
  exact Comment.isSteady_around h hdoc

/-- Inert comments around the dots leave what is spread **as steady as it is**. -/
theorem Brace.always_isSteady_spread (hhost : host.PrintsVerbatim) {argument : Expression}
    (h : argument.comments.all Comment.isInert = true) {printed : Doc}
    (hprinted : printed.IsSteady) :
    (Brace.spreadDocument argument printed).Always host Doc.IsSteady := by
  have hdots : (Doc.text "..." ++ printed).IsSteady :=
    (Doc.isCalm_text rfl).isSteady.append hprinted
  rw [Brace.spreadDocument]
  split_ifs
  · exact always_done (isSteady_spread hdots)
  · refine always_bind ?_
    refine @always_question _ _ host (.ownComments argument) _ fun s => ⟨rfl, ?_⟩
    split_ifs
    · exact always_done (isSteady_spread hdots)
    · exact always_bind ((always_isSteady_comments hhost h hdots).imp fun _ hdoc =>
        always_done (isSteady_spread (isSteady_commented hdoc)))

/-- The ancestors add no parentheses, which the width **would put there or not**. -/
theorem Markup.always_isSteady_surrounded (hhost : host.PrintsVerbatim)
    (hparens : ancestors.AddNoParens) {comments : List Comment}
    (h : comments.all Comment.isInert = true) {doc : Doc} (hdoc : doc.IsSteady) :
    (Markup.surrounded ancestors comments doc).Always host Doc.IsSteady := by
  refine always_bind ((always_isSteady_comments hhost h hdoc).imp fun commented hcommented => ?_)
  refine (Parens.always_document hparens commented).imp ?_
  rintro _ rfl
  exact hcommented

theorem Container.isSteady_braces (container : Container) (ancestors : Ancestors) {inside : Doc}
    (h : inside.IsSteady) : (container.braces ancestors inside).IsSteady := by
  rw [Container.braces]
  split_ifs
  · exact Brace.isSteady_hugging h
  · exact Brace.isSteady_apart h

/-- The closing tag of an element, or nothing in its place. -/
theorem Markup.always_isSteady_closing (hhost : host.PrintsVerbatim) {closing : Option Verbatim}
    (h : closing.all Verbatim.isInert = true) :
    (Markup.closingDocument closing).Always host fun closing => (closing.getD .nil).IsSteady := by
  rcases closing with _ | name
  · exact always_done Doc.isCalm_nil.isSteady
  · exact always_bind ((Tag.always_isCalm_closing hhost h).imp fun _ hclosing =>
      always_done hclosing.isSteady)

/-! ## Trees

By recursion on the tree, one statement for each kind of node. -/

/-- A foreign expression is printed as it is written **under any ancestors**,
so it may be spread. -/
theorem Expression.always_isSteady_foreign (hhost : host.PrintsVerbatim) {expression : Expression}
    (hforeign : expression.isForeign = true) (h : expression.isInert = true)
    (ancestors : Ancestors) :
    expression.comments.all Comment.isInert = true ∧
      (expression.document o ancestors).Always host Doc.IsSteady := by
  rcases expression with e | _
  · obtain ⟨hraw, hcomments⟩ := Bool.and_eq_true_iff.mp h
    refine ⟨hcomments, ?_⟩
    rw [Expression.document]
    refine (Host.always_expression fun s => hhost.expression e ancestors s).imp ?_
    rintro _ rfl
    exact (Doc.isCalm_text hraw).isSteady
  · cases hforeign

/-- A child with **steady contents**. -/
def Child.IsSteady (child : Child) : Prop := ∀ content ∈ child.contents, content.IsSteady

theorem Child.isSteady_text {raw : String} (h : Text.isInert raw = true) :
    (Child.text raw).IsSteady := by
  refine List.forall_mem_map.mpr fun word hword => ?_
  obtain ⟨-, hsub⟩ := TextContent.forall_isWord_words raw word hword
  exact List.all_eq_true.mpr fun c hc => List.all_eq_true.mp h c (hsub c hc)

theorem Shell.isSteady_doc_of_children {shell : Shell} {children : List Child}
    (hopening : shell.opening.IsSteady) (hclosing : shell.closingDoc.IsSteady)
    (h : ∀ child ∈ children, child.IsSteady) : (shell.doc o false children).IsSteady :=
  shell.isSteady_doc hopening hclosing fun content hcontent => by
    obtain ⟨child, hchild, hcontent⟩ := List.mem_flatMap.mp hcontent
    exact h child hchild content hcontent

mutual

theorem Expression.always_isSteady (hhost : host.PrintsVerbatim) {ancestors : Ancestors}
    (hparens : ancestors.AddNoParens) (expression : Expression) (h : expression.isInert = true) :
    (expression.document o ancestors).Always host Doc.IsSteady := by
  match expression with
  | .foreign e => exact (Expression.always_isSteady_foreign hhost rfl h ancestors).2
  | .markup node raw comments =>
    obtain ⟨hnode, hcomments⟩ := Bool.and_eq_true_iff.mp h
    rw [Expression.document]
    exact always_bind ((Node.always_isSteady hhost hparens node hnode).imp fun _ hdoc =>
      always_isSteady_comments hhost hcomments hdoc)
termination_by structural expression

theorem Container.always_isSteady (hhost : host.PrintsVerbatim) (ancestors : Ancestors)
    (container : Container) (h : container.isInert = true) :
    (container.document o ancestors).Always host Doc.IsSteady := by
  match container with
  | .empty comments =>
    rw [Container.document]
    exact always_bind ((Brace.always_isCalm_empty hhost h).imp fun _ hinside =>
      always_done (Container.isSteady_braces _ ancestors hinside.isSteady))
  | .filled expression =>
    rw [Container.document]
    exact always_bind ((Expression.always_isSteady hhost (Ancestors.addNoParens_cons rfl ancestors)
      expression h).imp fun _ hinside =>
        always_done (Container.isSteady_braces _ ancestors hinside))
termination_by structural container

/-- The value of an attribute is steady **behind its name**. -/
theorem AttributeValue.always_isSteady (hhost : host.PrintsVerbatim) {ancestors : Ancestors}
    (hparens : ancestors.AddNoParens) {name : Doc} (hname : name.IsCalm) (value : AttributeValue)
    (h : value.isInert = true) :
    (value.document o ancestors).Always host fun value => (Tag.valued name value).IsSteady := by
  match value with
  | .string raw =>
    rw [AttributeValue.document]
    exact always_done (Tag.isSteady_valued_string hname o.jsxQuotes raw)
  | .container container =>
    rw [AttributeValue.document]
    exact (Container.always_isSteady hhost ancestors container h).imp fun _ =>
      Tag.isSteady_valued hname
  | .markup markup =>
    rw [AttributeValue.document]
    exact (Markup.always_isSteady hhost hparens markup h).imp fun _ => Tag.isSteady_valued hname
termination_by structural value

theorem Attribute.always_isSteady (hhost : host.PrintsVerbatim) (ancestors : Ancestors)
    (item : Attribute) (h : item.isInert = true) :
    (item.document o ancestors).Always host Doc.IsSteady := by
  match item with
  | .bare name comments =>
    obtain ⟨hname, hcomments⟩ := Bool.and_eq_true_iff.mp h
    rw [Attribute.document]
    refine always_bind ((Verbatim.always_isCalm hhost hname).imp fun _ hname => ?_)
    exact always_isSteady_comments hhost hcomments
      (.concat (List.forall_mem_singleton.mpr hname.isSteady))
  | .valued name value comments =>
    obtain ⟨hname, hrest⟩ := Bool.and_eq_true_iff.mp h
    obtain ⟨hvalue, hcomments⟩ := Bool.and_eq_true_iff.mp hrest
    rw [Attribute.document]
    refine always_bind ((Verbatim.always_isCalm hhost hname).imp fun _ hname => ?_)
    exact always_bind
      ((AttributeValue.always_isSteady hhost (Ancestors.addNoParens_cons rfl ancestors) hname value
        hvalue).imp fun _ hvalued => always_isSteady_comments hhost hcomments hvalued)
  | .spread argument comments =>
    obtain ⟨hforeign, hrest⟩ := Bool.and_eq_true_iff.mp h
    obtain ⟨hargument, hcomments⟩ := Bool.and_eq_true_iff.mp hrest
    obtain ⟨hown, hprinted⟩ := @Expression.always_isSteady_foreign _ _ _ o hhost argument hforeign
      hargument (.jsxSpreadAttribute :: ancestors)
    rw [Attribute.document]
    refine always_bind (hprinted.imp fun _ hprinted => ?_)
    exact always_bind ((Brace.always_isSteady_spread hhost hown hprinted).imp fun _ hdoc =>
      always_isSteady_comments hhost hcomments hdoc)
termination_by structural item

theorem Attribute.always_allSteady (hhost : host.PrintsVerbatim) (ancestors : Ancestors)
    (items : List Attribute) (h : Attribute.allInert items = true) :
    (Attribute.documents o ancestors items).Always host fun docs => ∀ doc ∈ docs, doc.IsSteady := by
  match items with
  | [] =>
    rw [Attribute.documents]
    exact always_done (by simp)
  | first :: others =>
    obtain ⟨hfirst, hothers⟩ := Bool.and_eq_true_iff.mp h
    rw [Attribute.documents]
    refine always_bind
      ((Attribute.always_isSteady hhost ancestors first hfirst).imp fun _ hdoc => ?_)
    exact always_bind
      ((Attribute.always_allSteady hhost ancestors others hothers).imp fun _ hdocs =>
      always_done (List.forall_mem_cons.mpr ⟨hdoc, hdocs⟩))
termination_by structural items

theorem OpeningTag.always_isSteady (hhost : host.PrintsVerbatim) (ancestors : Ancestors)
    (tag : OpeningTag) (h : tag.isInert = true) :
    (tag.document o ancestors).Always host Doc.IsSteady := by
  match tag with
  | ⟨name, typeArguments, attributes, selfClosing⟩ =>
    obtain ⟨hname, hrest⟩ := Bool.and_eq_true_iff.mp h
    obtain ⟨harguments, hattributes⟩ := Bool.and_eq_true_iff.mp hrest
    rw [OpeningTag.document]
    refine always_bind ((Verbatim.always_isCalm hhost hname).imp fun _ hname => ?_)
    refine always_bind ((Verbatim.always_holdsOne hhost harguments).imp fun _ harguments => ?_)
    exact always_bind ((Attribute.always_allSteady hhost ancestors attributes hattributes).imp
      fun _ hdocs => always_done (OpeningTag.isSteady_doc hname harguments hdocs))
termination_by structural tag

theorem Markup.always_isSteady (hhost : host.PrintsVerbatim) {ancestors : Ancestors}
    (hparens : ancestors.AddNoParens) (markup : Markup) (h : markup.isInert = true) :
    (markup.document o ancestors false).Always host Doc.IsSteady := by
  match markup with
  | .element tag closing children comments =>
    obtain ⟨htag, hrest⟩ := Bool.and_eq_true_iff.mp h
    obtain ⟨hclosing, hrest⟩ := Bool.and_eq_true_iff.mp hrest
    obtain ⟨hchildren, hcomments⟩ := Bool.and_eq_true_iff.mp hrest
    rw [Markup.document]
    refine always_bind
      ((OpeningTag.always_isSteady hhost _ tag htag).imp fun opening hopening => ?_)
    refine always_bind
      ((Markup.always_isSteady_closing hhost hclosing).imp fun closing hclosing => ?_)
    refine always_bind ((Node.always_allSteady hhost (.jsxElement :: ancestors)
      (Ancestors.addNoParens_cons rfl ancestors) children hchildren).imp fun inside hinside => ?_)
    exact Markup.always_isSteady_surrounded hhost hparens hcomments
      (Shell.isSteady_doc_of_children hopening hclosing hinside)
  | .fragment opening closing children comments =>
    obtain ⟨hopening, hrest⟩ := Bool.and_eq_true_iff.mp h
    obtain ⟨hclosing, hrest⟩ := Bool.and_eq_true_iff.mp hrest
    obtain ⟨hchildren, hcomments⟩ := Bool.and_eq_true_iff.mp hrest
    rw [Markup.document]
    refine always_bind ((Tag.always_isCalm_fragment hhost hopening).1.imp fun _ hopening => ?_)
    refine always_bind ((Tag.always_isCalm_fragment hhost hclosing).2.imp fun _ hclosing => ?_)
    refine always_bind ((Node.always_allSteady hhost (.jsxFragment :: ancestors)
      (Ancestors.addNoParens_cons rfl ancestors) children hchildren).imp fun inside hinside => ?_)
    exact Markup.always_isSteady_surrounded hhost hparens hcomments
      (Shell.isSteady_doc_of_children hopening.isSteady hclosing.isSteady hinside)
termination_by structural markup

/-- A node that is inert is printed as **a steady document**. -/
theorem Node.always_isSteady (hhost : host.PrintsVerbatim) {ancestors : Ancestors}
    (hparens : ancestors.AddNoParens) (node : Node) (h : node.isInert = true) :
    (node.document o ancestors false).Always host Doc.IsSteady := by
  match node with
  | .text raw =>
    rw [Node.document]
    exact always_done (Doc.isCalm_text h).isSteady
  | .markup markup =>
    rw [Node.document]
    exact Markup.always_isSteady hhost hparens markup h
  | .container container =>
    rw [Node.document]
    exact Container.always_isSteady hhost ancestors container h
  | .spreadChild expression =>
    obtain ⟨hforeign, hexpression⟩ := Bool.and_eq_true_iff.mp h
    obtain ⟨hown, hprinted⟩ := @Expression.always_isSteady_foreign _ _ _ o hhost expression hforeign
      hexpression (.jsxSpreadChild :: ancestors)
    rw [Node.document]
    exact always_bind (hprinted.imp fun _ hprinted =>
      Brace.always_isSteady_spread hhost hown hprinted)
  | .attr item =>
    rw [Node.document]
    exact Attribute.always_isSteady hhost ancestors item h
  | .openingTag tag =>
    rw [Node.document]
    exact OpeningTag.always_isSteady hhost ancestors tag h
  | .closingTag name =>
    rw [Node.document]
    exact (Tag.always_isCalm_closing hhost h).imp fun _ => Doc.IsCalm.isSteady
  | .openingFragment comments =>
    rw [Node.document]
    exact (Tag.always_isCalm_fragment hhost h).1.imp fun _ => Doc.IsCalm.isSteady
  | .closingFragment comments =>
    rw [Node.document]
    exact (Tag.always_isCalm_fragment hhost h).2.imp fun _ => Doc.IsCalm.isSteady
  | .emptyExpression comments =>
    rw [Node.document]
    exact (Brace.always_isCalm_empty hhost h).imp fun _ => Doc.IsCalm.isSteady
termination_by structural node

/-- Of the children texts are printed **word by word**, so each word has to be inert. -/
theorem Node.always_allSteady (hhost : host.PrintsVerbatim) (ancestors : Ancestors)
    (hparens : ancestors.AddNoParens) (nodes : List Node) (h : Node.allInert nodes = true) :
    (Node.children o ancestors nodes).Always host fun children =>
      ∀ child ∈ children, child.IsSteady := by
  match nodes with
  | [] =>
    rw [Node.children]
    exact always_done (by simp)
  | first :: others =>
    obtain ⟨hfirst, hothers⟩ := Bool.and_eq_true_iff.mp h
    have hchildren := Node.always_allSteady hhost ancestors hparens others hothers
    rw [Node.children]
    cases htext : first.asText? with
    | some raw =>
      rw [htext] at hfirst
      exact always_bind (always_done (always_bind (hchildren.imp fun _ hchildren =>
        always_done (List.forall_mem_cons.mpr ⟨Child.isSteady_text hfirst, hchildren⟩))))
    | none =>
      rw [htext] at hfirst
      refine always_bind (always_map ((Node.always_isSteady hhost hparens first hfirst).imp
        fun doc hdoc => ?_))
      exact always_bind (hchildren.imp fun _ hchildren =>
        always_done (List.forall_mem_cons.mpr ⟨List.forall_mem_singleton.mpr hdoc, hchildren⟩))
termination_by structural nodes

end

end Reflow
