import Reflow.Markup.Document
import Reflow.Proofs.Host.Exchange
import Reflow.Proofs.Markup.Carrying

/-!
# Proofs/Markup/Building — every answer ends up in the document

A tree is printed as a document that is built around all the documents the host answers with
(`Node.builds`).  The comments around a document have to be laid out as by default, since a host may
drop what it is handed.
-/

namespace Reflow

open Dialogue
open Doc (Carries AllCarry)

/-! ## What the host answers -/

/-- The document an exchange **brings back**, if any. -/
def Exchange.answers : Exchange → List Answer
  | ⟨.expression .., doc⟩ | ⟨.dangling .., doc⟩ => [.own doc]
  | ⟨.comments .., doc⟩ => [.commented doc]
  | ⟨.parens _, _⟩ | ⟨.ownComments _, _⟩ => []

/-- A host that puts comments around a document **as by default**. -/
def Host.DefaultComments {σ ε : Type} (host : Host σ ε) : Prop :=
  ∀ comments doc s, (host.comments comments doc s).1 = Comment.around comments doc

variable {σ ε α β : Type} {host : Host σ ε} {o : LanguageOptions} {ancestors : Ancestors}

/-- An expression is answered by **what the host prints of it**, or by its text
if the host fails. -/
theorem Host.answer_expression_of {P : Doc → Prop} {e : ForeignExpression} {s : σ}
    (printed : ∀ doc, (host.expression e ancestors s).1 = .ok doc → P doc)
    (failed : P (.text e.raw)) : P (host.answer s (.expression e ancestors)).value := by
  rw [answer]
  split
  · next doc _ heq => exact printed doc (congrArg Prod.fst heq)
  · exact failed

namespace Dialogue

/-- What a dialogue **gathers**: `Q` holds of the documents that come back and of the value. -/
def Gathers (host : Host σ ε) (d : Dialogue α) (Q : Multiset Answer → α → Prop) : Prop :=
  d.Tells host Exchange.answers fun answers value => Q answers value

/-- A dialogue that **builds** its document around all documents that come back. -/
def Builds (host : Host σ ε) (d : Dialogue Doc) : Prop :=
  d.Gathers host fun answers doc => doc.Carries answers

theorem Gathers.imp {d : Dialogue α} {P Q : Multiset Answer → α → Prop} (h : d.Gathers host P)
    (hPQ : ∀ answers value, P answers value → Q answers value) : d.Gathers host Q :=
  Tells.imp h fun answers value => hPQ answers value

theorem gathers_done {value : α} {Q : Multiset Answer → α → Prop} (h : Q 0 value) :
    (done value).Gathers host Q :=
  tells_done h

/-- What two dialogues gather **adds up**, and the second may go by what the first comes to. -/
theorem gathers_bind {d : Dialogue α} {f : α → Dialogue β} {Q : Multiset Answer → β → Prop}
    (h : d.Gathers host fun answers value =>
      (f value).Gathers host fun others result => Q (answers + others) result) :
    (d >>= f).Gathers host Q :=
  tells_bind (Tells.imp h fun answers value hvalue =>
    Tells.imp hvalue fun others result hresult => by rwa [← Multiset.coe_add])

/-- What holds of the value alone is shown for the **last dialogue** in a row. -/
theorem gathers_bind_any {d : Dialogue α} {f : α → Dialogue β} {P : β → Prop}
    (h : ∀ value, (f value).Gathers host fun _ result => P result) :
    (d >>= f).Gathers host fun _ result => P result :=
  gathers_bind fun _ => h _

/-- The documents of a host's own are its answers to **two kinds of questions**, for an expression
and for dangling comments. -/
theorem forall_own_mem {P : Doc → Prop}
    (hexpression : ∀ e ancestors s, P (host.answer s (.expression e ancestors)).value)
    (hdangling : ∀ comments sameIndent s, P (host.answer s (.dangling comments sameIndent)).value)
    (d : Dialogue α) (s : σ) {doc : Doc}
    (h : .own doc ∈ (d.exchanges host s).flatMap Exchange.answers) : P doc := by
  induction d generalizing s with
  | done => cases h
  | ask q next ih =>
    rw [exchanges, List.flatMap_cons, List.mem_append] at h
    obtain h | h := h
    · cases q with
      | expression e ancestors =>
        obtain rfl := Answer.own.inj (List.mem_singleton.mp h)
        exact hexpression e ancestors s
      | dangling comments sameIndent =>
        obtain rfl := Answer.own.inj (List.mem_singleton.mp h)
        exact hdangling comments sameIndent s
      | comments => cases List.mem_singleton.mp h
      | parens | ownComments => cases h
    · exact ih _ _ h

/-- A yes or no brings **no document** back. -/
theorem gathers_parens {Q : Multiset Answer → Bool → Prop} (h : ∀ answer, Q 0 answer) :
    (question (.parens ancestors)).Gathers host Q :=
  tells_question fun _ => h _

theorem gathers_ownComments {e : Expression} {Q : Multiset Answer → Bool → Prop}
    (h : ∀ answer, Q 0 answer) : (question (.ownComments e)).Gathers host Q :=
  tells_question fun _ => h _

/-- Comments around a document are **one more answer**. -/
theorem gathers_comments (hhost : host.DefaultComments) (comments : List Comment) {doc : Doc}
    {answers : Multiset Answer} (h : doc.Carries answers) :
    (question (.comments comments doc)).Gathers host fun others result =>
      result.Carries (answers + others) := by
  refine tells_question fun s => ?_
  have hanswer : (host.answer s (.comments comments doc)).value = Comment.around comments doc :=
    hhost comments doc s
  rw [hanswer]
  exact h.around comments

theorem builds_done {doc : Doc} (h : doc.Carries 0) : (done doc).Builds host :=
  gathers_done h

/-- Whatever the host prints for an expression is **an answer**. -/
theorem builds_expression (e : ForeignExpression) (path : Ancestors) :
    (question (.expression e path)).Builds host := by
  intro s
  exact .own _

/-- What the host prints of dangling comments is **a document of its own**. -/
theorem builds_dangling (comments : List Comment) (sameIndent : Bool) :
    (question (.dangling comments sameIndent)).Builds host := by
  intro s
  exact .own _

theorem builds_comments (hhost : host.DefaultComments) (comments : List Comment) {doc : Doc}
    (h : doc.Carries 0) : (question (.comments comments doc)).Builds host :=
  (gathers_comments hhost comments h).imp fun answers _ hdoc => zero_add answers ▸ hdoc

/-- What is put around a document **keeps what it carries**. -/
theorem Builds.map {d : Dialogue Doc} {f : Doc → Doc} (h : d.Builds host)
    (hf : ∀ {doc answers}, doc.Carries answers → (f doc).Carries answers) :
    (do return f (← d)).Builds host :=
  gathers_bind (Gathers.imp h fun answers _ hdoc =>
    gathers_done ((add_zero answers).symm ▸ hf hdoc))

/-- **Comments** around what has been built are the last answer. -/
theorem Builds.comments (hhost : host.DefaultComments) {d : Dialogue Doc} (h : d.Builds host)
    (comments : List Comment) : (do question (.comments comments (← d))).Builds host :=
  gathers_bind (Gathers.imp h fun _ _ hdoc => gathers_comments hhost comments hdoc)

end Dialogue

/-! ## Dialogues -/

theorem Verbatim.builds (hhost : host.DefaultComments) (text : Verbatim) :
    text.document.Builds host :=
  builds_comments hhost text.comments (.text text.raw)

theorem Verbatim.builds_optional (hhost : host.DefaultComments) (text : Option Verbatim) :
    (Verbatim.optionalDocument text).Builds host := by
  cases text with
  | none => exact builds_done Doc.carries_nil
  | some text => exact text.builds hhost

theorem Tag.builds_closing (hhost : host.DefaultComments) (name : Verbatim) :
    (Tag.closingDocument name).Builds host :=
  (name.builds hhost).map Tag.carries_closing

theorem Brace.builds_spread (hhost : host.DefaultComments) (argument : Expression) {printed : Doc}
    {answers : Multiset Answer} (h : printed.Carries answers) :
    (Brace.spreadDocument argument printed).Gathers host fun others doc =>
      doc.Carries (answers + others) := by
  have hdots : (Doc.text "..." ++ printed).Carries answers :=
    ((Carries.text "...").append h).congr (zero_add _)
  have hplain : (Brace.spread (Doc.text "..." ++ printed)).Carries (answers + 0) :=
    (Brace.carries_spread hdots).congr (add_zero _).symm
  rw [Brace.spreadDocument]
  split_ifs
  · exact gathers_done hplain
  · refine gathers_bind (gathers_ownComments fun printsOwn => ?_)
    simp only [zero_add]
    split_ifs
    · exact gathers_done hplain
    · refine gathers_bind ((gathers_comments hhost argument.comments hdots).imp
        fun _ _ hdoc => gathers_done ?_)
      rw [add_zero]
      exact Brace.carries_spread (Brace.carries_commented hdoc)

theorem Parens.builds (ancestors : Ancestors) {markup : Doc} {answers : Multiset Answer}
    (h : markup.Carries answers) :
    (Parens.document ancestors markup).Gathers host fun others doc =>
      doc.Carries (answers + others) := by
  have hplain : markup.Carries (answers + 0) := h.congr (add_zero _).symm
  rw [Parens.document.eq_def]
  split
  · exact gathers_done hplain
  · split_ifs
    · exact gathers_done hplain
    · refine gathers_bind (gathers_parens fun alreadyThere => gathers_done ?_)
      rw [zero_add]
      exact Parens.carries_around alreadyThere _ hplain

theorem Markup.builds_closing (hhost : host.DefaultComments) (closing : Option Verbatim) :
    (Markup.closingDocument closing).Gathers host fun answers closing =>
      AllCarry closing.toList answers := by
  cases closing with
  | none => exact gathers_done .nil
  | some name =>
    exact gathers_bind (Gathers.imp (Tag.builds_closing hhost name) fun _ _ hclosing =>
      gathers_done (.cons hclosing .nil))

theorem Markup.builds_surrounded (hhost : host.DefaultComments) (ancestors : Ancestors)
    (comments : List Comment) {doc : Doc} {answers : Multiset Answer} (h : doc.Carries answers) :
    (Markup.surrounded ancestors comments doc).Gathers host fun others doc =>
      doc.Carries (answers + others) :=
  gathers_bind ((gathers_comments hhost comments h).imp fun _ _ hdoc =>
    (Parens.builds ancestors hdoc).imp fun _ _ hdoc => hdoc.congr (add_assoc ..))

theorem Brace.builds_empty (comments : List Comment) : (Brace.emptyDocument comments).Builds host :=
  (builds_dangling comments _).map (Brace.carries_onlyComments _)

/-! ## Trees

By recursion on the tree, one statement for each kind of node. -/

mutual

/-- A foreign expression is **one answer**; markup is built here, and comments go around it. -/
theorem Expression.builds (hhost : host.DefaultComments) (ancestors : Ancestors)
    (expression : Expression) : (expression.document o ancestors).Builds host := by
  match expression with
  | .foreign e =>
    rw [Expression.document]
    exact builds_expression e ancestors
  | .markup node raw comments =>
    rw [Expression.document]
    exact (Node.builds hhost ancestors node).comments hhost comments
termination_by structural expression

theorem Container.builds (hhost : host.DefaultComments) (ancestors : Ancestors)
    (container : Container) : (container.document o ancestors).Builds host := by
  match container with
  | .empty comments =>
    rw [Container.document]
    exact (Brace.builds_empty comments).map (Container.carries_braces _ ancestors)
  | .filled expression =>
    rw [Container.document]
    exact (Expression.builds hhost _ expression).map (Container.carries_braces _ ancestors)
termination_by structural container

theorem AttributeValue.builds (hhost : host.DefaultComments) (ancestors : Ancestors)
    (value : AttributeValue) : (value.document o ancestors).Builds host := by
  match value with
  | .string raw =>
    rw [AttributeValue.document]
    exact builds_done (.text _)
  | .container container =>
    rw [AttributeValue.document]
    exact Container.builds hhost ancestors container
  | .markup markup =>
    rw [AttributeValue.document]
    exact Markup.builds hhost ancestors markup
termination_by structural value

theorem Attribute.builds (hhost : host.DefaultComments) (ancestors : Ancestors) (item : Attribute) :
    (item.document o ancestors).Builds host := by
  match item with
  | .bare name comments =>
    rw [Attribute.document]
    exact gathers_bind (Gathers.imp (name.builds hhost) fun answers _ hname =>
      gathers_comments hhost comments ((AllCarry.cons hname .nil).concat.congr (add_zero _)))
  | .valued name value comments =>
    rw [Attribute.document]
    refine gathers_bind (Gathers.imp (name.builds hhost) fun _ _ hname => ?_)
    refine gathers_bind (Gathers.imp (AttributeValue.builds hhost _ value) fun _ _ hvalue => ?_)
    exact (gathers_comments hhost comments (Tag.carries_valued hname hvalue)).imp
      fun _ _ hdoc => hdoc.congr (add_assoc ..)
  | .spread argument comments =>
    rw [Attribute.document]
    refine gathers_bind (Gathers.imp (Expression.builds hhost _ argument) fun _ _ hprinted => ?_)
    refine gathers_bind ((Brace.builds_spread hhost argument hprinted).imp fun _ _ hspread => ?_)
    exact (gathers_comments hhost comments hspread).imp fun _ _ hdoc =>
      hdoc.congr (add_assoc ..)
termination_by structural item

/-- There is **one document for each attribute**, as the layout of a tag counts on. -/
theorem Attribute.builds_all (hhost : host.DefaultComments) (ancestors : Ancestors)
    (items : List Attribute) :
    (Attribute.documents o ancestors items).Gathers host fun answers docs =>
      docs.length = items.length ∧ AllCarry docs answers := by
  match items with
  | [] =>
    rw [Attribute.documents]
    exact gathers_done ⟨rfl, .nil⟩
  | first :: others =>
    rw [Attribute.documents]
    refine gathers_bind (Gathers.imp (Attribute.builds hhost ancestors first) fun _ _ hdoc => ?_)
    refine gathers_bind ((Attribute.builds_all hhost ancestors others).imp fun _ _ hdocs => ?_)
    obtain ⟨hlength, hcarry⟩ := hdocs
    refine gathers_done ⟨by rw [List.length_cons, List.length_cons, hlength], ?_⟩
    rw [add_zero]
    exact .cons hdoc hcarry
termination_by structural items

theorem OpeningTag.builds (hhost : host.DefaultComments) (ancestors : Ancestors)
    (tag : OpeningTag) : (tag.document o ancestors).Builds host := by
  match tag with
  | ⟨name, typeArguments, attributes, selfClosing⟩ =>
    rw [OpeningTag.document]
    refine gathers_bind (Gathers.imp (name.builds hhost) fun _ _ hname => ?_)
    refine gathers_bind (Gathers.imp (Verbatim.builds_optional hhost typeArguments)
      fun _ _ harguments => ?_)
    refine gathers_bind ((Attribute.builds_all hhost ancestors attributes).imp fun _ _ hdocs => ?_)
    refine gathers_done ?_
    rw [add_zero]
    exact OpeningTag.carries_doc hdocs.1 hname harguments hdocs.2
termination_by structural tag

theorem Markup.builds (hhost : host.DefaultComments) (ancestors : Ancestors) (markup : Markup) :
    (markup.document o ancestors false).Builds host := by
  match markup with
  | .element tag closing children comments =>
    rw [Markup.document]
    refine gathers_bind (Gathers.imp (OpeningTag.builds hhost _ tag) fun _ _ hopening => ?_)
    refine gathers_bind ((Markup.builds_closing hhost closing).imp fun _ closing hclosing => ?_)
    refine gathers_bind ((Node.builds_all hhost _ children).imp fun _ _ hchildren => ?_)
    exact (Markup.builds_surrounded hhost ancestors comments
      ((Shell.ofElement tag _ closing).carries_doc hopening hclosing hchildren)).imp
        fun _ _ hdoc => hdoc.congr (by simp only [add_assoc])
  | .fragment openingComments closingComments children comments =>
    rw [Markup.document]
    refine gathers_bind (Gathers.imp ((builds_dangling openingComments true).map
      (Tag.carries_fragment "<" false openingComments)) fun _ _ hopening => ?_)
    refine gathers_bind (Gathers.imp ((builds_dangling closingComments true).map
      (Tag.carries_fragment "</" true closingComments)) fun _ closing hclosing => ?_)
    refine gathers_bind ((Node.builds_all hhost _ children).imp fun _ _ hchildren => ?_)
    exact (Markup.builds_surrounded hhost ancestors comments
      ((Shell.ofFragment _ closing).carries_doc hopening (.cons hclosing .nil) hchildren)).imp
        fun _ _ hdoc => hdoc.congr (by simp only [add_assoc, add_zero])
termination_by structural markup

/-- A node is printed as a document **built around all answers**. -/
theorem Node.builds (hhost : host.DefaultComments) (ancestors : Ancestors) (node : Node) :
    (node.document o ancestors false).Builds host := by
  match node with
  | .text raw =>
    rw [Node.document]
    exact builds_done (.text raw)
  | .markup markup =>
    rw [Node.document]
    exact Markup.builds hhost ancestors markup
  | .container container =>
    rw [Node.document]
    exact Container.builds hhost ancestors container
  | .spreadChild expression =>
    rw [Node.document]
    exact gathers_bind (Gathers.imp (Expression.builds hhost _ expression) fun _ _ hprinted =>
      Brace.builds_spread hhost expression hprinted)
  | .attr item =>
    rw [Node.document]
    exact Attribute.builds hhost ancestors item
  | .openingTag tag =>
    rw [Node.document]
    exact OpeningTag.builds hhost ancestors tag
  | .closingTag name =>
    rw [Node.document]
    exact Tag.builds_closing hhost name
  | .openingFragment comments =>
    rw [Node.document]
    exact (builds_dangling comments true).map (Tag.carries_fragment "<" false comments)
  | .closingFragment comments =>
    rw [Node.document]
    exact (builds_dangling comments true).map (Tag.carries_fragment "</" true comments)
  | .emptyExpression comments =>
    rw [Node.document]
    exact Brace.builds_empty comments
termination_by structural node

/-- A text among the children has **no answers** in it. -/
theorem Node.builds_all (hhost : host.DefaultComments) (ancestors : Ancestors) (nodes : List Node) :
    (Node.children o ancestors nodes).Gathers host fun answers children =>
      Child.AllCarry children answers := by
  match nodes with
  | [] =>
    rw [Node.children]
    exact gathers_done .nil
  | first :: others =>
    rw [Node.children]
    cases first.asText? with
    | some raw =>
      refine gathers_bind (gathers_done ?_)
      refine gathers_bind ((Node.builds_all hhost ancestors others).imp fun _ _ hchildren =>
        gathers_done ?_)
      rw [zero_add, add_zero]
      exact hchildren.text raw
    | none =>
      dsimp only
      rw [map_eq_pure_bind]
      refine gathers_bind (gathers_bind (Gathers.imp (Node.builds hhost ancestors first)
        fun _ doc hdoc => gathers_done ?_))
      refine gathers_bind ((Node.builds_all hhost ancestors others).imp fun _ _ hchildren =>
        gathers_done ?_)
      rw [add_zero, add_zero]
      exact hchildren.printed first.childKind hdoc
termination_by structural nodes

end

end Reflow
