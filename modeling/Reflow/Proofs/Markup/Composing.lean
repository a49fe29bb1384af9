import Reflow.Proofs.Host.Always
import Reflow.Proofs.Markup.Asking
import Reflow.Proofs.Markup.Children
import Reflow.Proofs.Markup.Grammar
import Reflow.Proofs.Markup.Plain
import Reflow.Proofs.Syntax.Places

/-!
# Proofs/Markup/Composing — what every part of a document has, the whole has

Printing puts documents together in a fixed number of ways.  A property that each of these ways
keeps, from what is written in the tree and from the places of it that may hold nothing, is a
property of the document of every node (`Node.always_keeps`), as long as a host prints what is
written.  Parentheses may keep less than the whole property; they stand around what is spread, and
around the whole.
-/

namespace Reflow

open Dialogue

/-- What holds of members and of what is put between them holds **of the list put together**. -/
theorem forall_mem_intersperse {α : Type} {P : α → Prop} {between : α} (hbetween : P between)
    {xs : List α} (h : ∀ x ∈ xs, P x) : ∀ x ∈ xs.intersperse between, P x := by
  induction xs with
  | nil => exact h
  | cons x xs ih =>
    obtain ⟨hx, hxs⟩ := List.forall_mem_cons.mp h
    cases xs with
    | nil => exact h
    | cons next xs =>
      rw [List.intersperse_cons_cons, List.forall_mem_cons, List.forall_mem_cons]
      exact ⟨hx, hbetween, ih hxs⟩

variable {σ ε : Type} {host : Host σ ε} {o : LanguageOptions}

/-- What is **asked of a tree and its host** for a property of documents. -/
structure Conditions where
  /-- Texts that are printed as they are written. -/
  written : String → Prop
  /-- Places that may hold nothing. -/
  place : Place → Prop
  /-- Whether there are parentheses already. -/
  parens : Bool → Prop

/-- All texts of these comments are **as asked**. -/
def Conditions.Comments (C : Conditions) (comments : List Comment) : Prop :=
  ∀ s ∈ comments.map Comment.raw, C.written s

/-- A property `P` of documents that is **kept by all ways of putting them together**, but for
parentheses: these keep `Q`, and no comments stand beside what has only that. -/
structure Conditions.Keep (C : Conditions) (o : LanguageOptions) (P Q : Doc → Prop) : Prop where
  text {s : String} (h : C.written s) : P (.text s)
  string (q : Quote) {raw : String} (h : C.written raw) :
      P (.text (AttributeString.normalize q raw))
  around {comments : List Comment} (h : C.Comments comments) {doc : Doc} (hdoc : P doc) :
    P (Comment.around comments doc)
  bare {name : Doc} (hname : P name) : P (.concat [name])
  valued {name value : Doc} (hname : P name) (hvalue : P value) : P (Tag.valued name value)
  closing {name : Doc} (hname : P name) : P (Tag.closing name)
  opening (tag : OpeningTag) {name typeArguments : Doc} {attributes : List Doc} (hname : P name)
    (harguments : typeArguments = .nil ∨
      P typeArguments) (hattributes : ∀ doc ∈ attributes, P doc) :
    P (tag.doc o name typeArguments attributes)
  openingFragment {comments : List Comment} (h : C.Comments comments)
    (hplace : C.place (.fragmentTag comments)) :
    P (Tag.openingFragment comments (Comment.dangling comments true))
  closingFragment {comments : List Comment} (h : C.Comments comments)
    (hplace : C.place (.fragmentTag comments)) :
    P (Tag.closingFragment comments (Comment.dangling comments true))
  lone {comments : List Comment} (h : C.Comments comments) (hplace : C.place (.lone comments)) :
    P (Brace.onlyComments (comments.any Comment.isLine)
      (Comment.dangling comments !comments.any Comment.isLine))
  emptyBraces {comments : List Comment} (h : C.Comments comments) :
    P (Brace.hugging (Brace.onlyComments (comments.any Comment.isLine)
      (Comment.dangling comments !comments.any Comment.isLine)))
  hugging {inside : Doc} (h : P inside) : P (Brace.hugging inside)
  apart {inside : Doc} (h : P inside) : P (Brace.apart inside)
  weaken {doc : Doc} (h : P doc) : Q doc
  parens {alreadyThere : Bool} (h : C.parens alreadyThere) (shouldBreak : Bool) {doc : Doc}
    (hdoc : P doc) : Q (Parens.around alreadyThere shouldBreak doc)
  commented {comments : List Comment} (hplace : C.place (.spread comments)) (hsome : comments ≠ [])
    {doc : Doc} (hdoc : Q doc) : P doc
  spread {printed : Doc} (h : Q printed) : P (Brace.spread (Doc.text "..." ++ printed))
  spreadCommented {comments : List Comment} (h : C.Comments comments) {printed : Doc}
    (hprinted : P printed) :
    P (Brace.spread (Brace.commented (Comment.around comments (Doc.text "..." ++ printed))))
  body {shell : Shell} {nodes : List Node} {children : List Child}
    (hplace : C.place (.body shell.isElement shell.closing.isSome nodes))
      (hopening : P shell.opening)
    (hclosing : ∀ doc ∈ shell.closing, P doc) (hchildren : List.Forall₂ Node.IsChild nodes children)
    (hdocs : ∀ kind doc, .printed kind doc ∈ children → P doc) : P (shell.doc o false children)

/-- A host that **prints what is written** and answers as asked about the parentheses
of what is spread. -/
structure Host.Meets (host : Host σ ε) (C : Conditions) : Prop where
  verbatim : host.PrintsVerbatim
  parens {parent : Parent} (h : parent.isSpread = true) (others : Ancestors) (s : σ) :
    C.parens (host.parens (parent :: others) s).1

/-- Ancestors that add no parentheses, or under which a host **answers as asked** about them. -/
def Host.Allows (host : Host σ ε) (C : Conditions) (ancestors : Ancestors) : Prop :=
  ancestors.AddNoParens ∨ ∀ s, C.parens (host.parens ancestors s).1

/-- What a document **keeps under its ancestors**: all of it if these add no parentheses. -/
def Ancestors.Keep (ancestors : Ancestors) (P Q : Doc → Prop) (doc : Doc) : Prop :=
  Q doc ∧ (ancestors.AddNoParens → P doc)

variable {C : Conditions} {P Q : Doc → Prop} {ancestors : Ancestors}

/-- All of the property is **enough under any ancestors**, since parentheses
keep no more than it. -/
theorem Conditions.Keep.always {d : Dialogue Doc} (hkeep : C.Keep o P Q) (h : d.Always host P) :
    d.Always host (ancestors.Keep P Q) :=
  h.imp fun _ hdoc => ⟨hkeep.weaken hdoc, fun _ => hdoc⟩

theorem Host.Meets.allows (hhost : host.Meets C) {parent : Parent} (h : parent.isSpread = true)
    (others : Ancestors) : host.Allows C (parent :: others) :=
  .inr fun s => hhost.parens h others s

/-! ## Names, comments and what surrounds -/

theorem Host.Meets.always_around (hhost : host.Meets C) (hkeep : C.Keep o P Q)
    {comments : List Comment} (h : C.Comments comments) {doc : Doc} (hdoc : P doc) :
    (question (.comments comments doc)).Always host P :=
  (hhost.verbatim.always_comments comments doc).imp fun _ heq => heq ▸ hkeep.around h hdoc

/-- The comments around what is spread, **if there are any**. -/
theorem Host.Meets.always_around_spread (hhost : host.Meets C) (hkeep : C.Keep o P Q)
    {comments : List Comment} (h : C.Comments comments) (hplace : C.place (.spread comments))
    {doc : Doc} (hdoc : Q doc) : (question (.comments comments doc)).Always host fun doc =>
      Q doc ∧ (comments ≠ [] → P doc) := by
  cases comments with
  | nil =>
    refine (hhost.verbatim.always_comments [] doc).imp fun _ heq => ?_
    rw [heq]
    exact ⟨hdoc, fun hsome => absurd rfl hsome⟩
  | cons first others =>
    have hsome : first :: others ≠ [] := List.cons_ne_nil first others
    exact (hhost.always_around hkeep h (hkeep.commented hplace hsome hdoc)).imp
      fun _ hwhole => ⟨hkeep.weaken hwhole, fun _ => hwhole⟩

theorem Verbatim.always_keeps (hhost : host.Meets C) (hkeep : C.Keep o P Q) {text : Verbatim}
    (h : ∀ s ∈ text.written, C.written s) : text.document.Always host P := by
  obtain ⟨hraw, hcomments⟩ := List.forall_mem_cons.mp h
  exact hhost.always_around hkeep hcomments (hkeep.text hraw)

theorem Verbatim.always_keeps_optional (hhost : host.Meets C) (hkeep : C.Keep o P Q)
    {text : Option Verbatim} (h : ∀ s ∈ optionalWritten text, C.written s) :
    (optionalDocument text).Always host fun doc => doc = .nil ∨ P doc := by
  cases text with
  | none => exact always_done (.inl rfl)
  | some text => exact (Verbatim.always_keeps hhost hkeep h).imp fun _ => .inr

theorem Tag.always_keeps_closing (hhost : host.Meets C) (hkeep : C.Keep o P Q) {name : Verbatim}
    (h : ∀ s ∈ name.written, C.written s) : (closingDocument name).Always host P :=
  always_bind ((Verbatim.always_keeps hhost hkeep h).imp fun _ hname =>
    always_done (hkeep.closing hname))

theorem Markup.always_keeps_closing (hhost : host.Meets C) (hkeep : C.Keep o P Q)
    {closing : Option Verbatim} (h : ∀ s ∈ Verbatim.optionalWritten closing, C.written s) :
    (closingDocument closing).Always host fun result =>
      result.isSome = closing.isSome ∧ ∀ doc ∈ result, P doc := by
  cases closing with
  | none => exact always_done ⟨rfl, nofun⟩
  | some name =>
    refine always_bind ((Tag.always_keeps_closing hhost hkeep h).imp fun doc hdoc =>
      always_done ⟨rfl, fun result hresult => ?_⟩)
    cases hresult
    exact hdoc

theorem Tag.always_keeps_fragment (hhost : host.Meets C) (hkeep : C.Keep o P Q)
    {comments : List Comment} (h : C.Comments comments) (hplace : C.place (.fragmentTag comments)) :
    (openingFragmentDocument comments).Always host P ∧
      (closingFragmentDocument comments).Always host P := by
  have hdangling := hhost.verbatim.always_dangling comments true
  refine ⟨always_bind (hdangling.imp ?_), always_bind (hdangling.imp ?_)⟩
  · rintro _ rfl
    exact always_done (hkeep.openingFragment h hplace)
  · rintro _ rfl
    exact always_done (hkeep.closingFragment h hplace)

/-- The inside of braces that hold **nothing but comments** is known. -/
theorem Brace.always_empty (hhost : host.PrintsVerbatim) (comments : List Comment) :
    (emptyDocument comments).Always host (· = onlyComments (comments.any Comment.isLine)
      (Comment.dangling comments !comments.any Comment.isLine)) := by
  refine always_bind ((hhost.always_dangling comments _).imp ?_)
  rintro _ rfl
  exact always_done rfl

/-- In braces what parentheses keep is enough; only **comments on what is spread** need
all of the property. -/
theorem Brace.always_keeps_spread (hhost : host.Meets C) (hkeep : C.Keep o P Q)
    {argument : Expression} (h : C.Comments argument.comments) {printed : Doc}
    (hprinted : Q printed) (hcommented : argument.comments ≠ [] → P printed) :
    (spreadDocument argument printed).Always host P := by
  rw [spreadDocument]
  split_ifs with hempty
  · exact always_done (hkeep.spread hprinted)
  · have hsome : argument.comments ≠ [] := fun hnil => hempty (List.isEmpty_iff.mpr hnil)
    refine always_bind (always_question fun s => ⟨rfl, ?_⟩)
    split_ifs
    · exact always_done (hkeep.spread hprinted)
    · refine always_bind ((hhost.verbatim.always_comments _ _).imp ?_)
      rintro _ rfl
      exact always_done (hkeep.spreadCommented h (hcommented hsome))

/-- Under ancestors that add no parentheses **the markup is what is printed**, with all it has. -/
theorem Parens.always_keeps (hkeep : C.Keep o P Q) (hallow : host.Allows C ancestors) {markup : Doc}
    (h : P markup) : (document ancestors markup).Always host (ancestors.Keep P Q) := by
  obtain hnone | hparens := hallow
  · exact hkeep.always ((always_document hnone markup).imp fun _ heq => heq ▸ h)
  · rw [document.eq_def]
    split
    · exact hkeep.always (always_done h)
    · next parent others =>
      split_ifs with hsuppress
      · exact hkeep.always (always_done h)
      · exact always_bind (always_question fun s => ⟨rfl, always_done
          ⟨hkeep.parens (hparens s) _ h, fun hnone => absurd (hnone parent rfl) hsuppress⟩⟩)

theorem Markup.always_keeps_surrounded (hhost : host.Meets C) (hkeep : C.Keep o P Q)
    (hallow : host.Allows C ancestors) {comments : List Comment} (h : C.Comments comments)
    {doc : Doc} (hdoc : P doc) :
    (surrounded ancestors comments doc).Always host (ancestors.Keep P Q) :=
  always_bind ((hhost.always_around hkeep h hdoc).imp fun _ hdoc =>
    Parens.always_keeps hkeep hallow hdoc)

/-! ## Trees

By recursion on the tree, one statement for each kind of node. -/

mutual

theorem Expression.always_keeps (hhost : host.Meets C) (hkeep : C.Keep o P Q)
    {ancestors : Ancestors} (hnone : ancestors.AddNoParens) (expression : Expression)
    (h : ∀ s ∈ expression.written, C.written s) (hp : ∀ place ∈ expression.places, C.place place) :
    (expression.document o ancestors).Always host P := by
  match expression with
  | .foreign e =>
    rw [Expression.written] at h
    rw [Expression.document]
    refine (Host.always_expression fun s => hhost.verbatim.expression e ancestors s).imp ?_
    rintro _ rfl
    exact hkeep.text (h _ List.mem_cons_self)
  | .markup node raw comments =>
    rw [Expression.written, List.forall_mem_append] at h
    rw [Expression.places] at hp
    rw [Expression.document]
    exact always_bind ((Node.always_keeps hhost hkeep (.inl hnone) node h.1 hp).imp fun _ hdoc =>
      hhost.always_around hkeep h.2 (hdoc.2 hnone))
termination_by structural expression

/-- What is spread keeps the whole property **if it has comments**. -/
theorem Expression.always_keeps_spread (hhost : host.Meets C) (hkeep : C.Keep o P Q)
    {ancestors : Ancestors} (hallow : host.Allows C ancestors) (expression : Expression)
    (h : ∀ s ∈ expression.written, C.written s)
    (hspread : ∀ place ∈ expression.spreadPlaces, C.place place)
    (hp : ∀ place ∈ expression.places, C.place place) :
    (expression.document o ancestors).Always host fun doc =>
      Q doc ∧ (expression.comments ≠ [] → P doc) := by
  match expression with
  | .foreign e =>
    rw [Expression.written] at h
    rw [Expression.document]
    refine (Host.always_expression fun s => hhost.verbatim.expression e ancestors s).imp ?_
    rintro _ rfl
    have htext := hkeep.text (h _ List.mem_cons_self)
    exact ⟨hkeep.weaken htext, fun _ => htext⟩
  | .markup node raw comments =>
    rw [Expression.written, List.forall_mem_append] at h
    rw [Expression.spreadPlaces, List.forall_mem_singleton] at hspread
    rw [Expression.places] at hp
    rw [Expression.document]
    exact always_bind ((Node.always_keeps hhost hkeep hallow node h.1 hp).imp fun _ hdoc =>
      hhost.always_around_spread hkeep h.2 hspread hdoc.1)
termination_by structural expression

theorem Container.always_keeps (hhost : host.Meets C) (hkeep : C.Keep o P Q)
    (ancestors : Ancestors) (container : Container) (h : ∀ s ∈ container.written, C.written s)
    (hp : ∀ place ∈ container.places, C.place place) :
    (container.document o ancestors).Always host P := by
  match container with
  | .empty comments =>
    rw [Container.written] at h
    rw [Container.document]
    refine always_bind ((Brace.always_empty hhost.verbatim comments).imp ?_)
    rintro _ rfl
    exact always_done (hkeep.emptyBraces h)
  | .filled expression =>
    rw [Container.written] at h
    rw [Container.places] at hp
    rw [Container.document]
    have hbraces : Ancestors.AddNoParens (.jsxExpressionContainer :: ancestors) :=
      Ancestors.addNoParens_cons rfl ancestors
    have hinside := Expression.always_keeps hhost hkeep hbraces expression h hp
    refine always_bind (hinside.imp fun _ hinside => always_done ?_)
    rw [Container.braces]
    split_ifs
    · exact hkeep.hugging hinside
    · exact hkeep.apart hinside
termination_by structural container

theorem AttributeValue.always_keeps (hhost : host.Meets C) (hkeep : C.Keep o P Q)
    {ancestors : Ancestors} (hnone : ancestors.AddNoParens) (value : AttributeValue)
    (h : ∀ s ∈ value.written, C.written s) (hp : ∀ place ∈ value.places, C.place place) :
    (value.document o ancestors).Always host P := by
  match value with
  | .string raw =>
    rw [AttributeValue.written] at h
    rw [AttributeValue.document]
    exact always_done (hkeep.string o.jsxQuotes (h raw (List.mem_singleton_self raw)))
  | .container container =>
    rw [AttributeValue.written] at h
    rw [AttributeValue.places] at hp
    rw [AttributeValue.document]
    exact Container.always_keeps hhost hkeep ancestors container h hp
  | .markup markup =>
    rw [AttributeValue.written] at h
    rw [AttributeValue.places, List.forall_mem_cons] at hp
    rw [AttributeValue.document]
    exact (Markup.always_keeps hhost hkeep (.inl hnone) markup h hp.1 hp.2).imp fun _ hdoc =>
      hdoc.2 hnone
termination_by structural value

/-- The argument of a spread may be markup **in parentheses**, which the braces
around it make good. -/
theorem Attribute.always_keeps (hhost : host.Meets C) (hkeep : C.Keep o P Q)
    (ancestors : Ancestors) (item : Attribute) (h : ∀ s ∈ item.written, C.written s)
    (hp : ∀ place ∈ item.places, C.place place) : (item.document o ancestors).Always host P := by
  match item with
  | .bare name comments =>
    rw [Attribute.written, List.forall_mem_append] at h
    rw [Attribute.document]
    exact always_bind ((Verbatim.always_keeps hhost hkeep h.1).imp fun _ hname =>
      hhost.always_around hkeep h.2 (hkeep.bare hname))
  | .valued name value comments =>
    rw [Attribute.written, List.forall_mem_append, List.forall_mem_append] at h
    obtain ⟨hname, hvalue, hcomments⟩ := h
    rw [Attribute.places] at hp
    rw [Attribute.document]
    refine always_bind ((Verbatim.always_keeps hhost hkeep hname).imp fun _ hname => ?_)
    have hattribute : Ancestors.AddNoParens (.jsxAttribute :: ancestors) :=
      Ancestors.addNoParens_cons rfl ancestors
    have hprinted := AttributeValue.always_keeps hhost hkeep hattribute value hvalue hp
    exact always_bind (hprinted.imp fun _ hvalue =>
      hhost.always_around hkeep hcomments (hkeep.valued hname hvalue))
  | .spread argument comments =>
    rw [Attribute.written, List.forall_mem_append] at h
    obtain ⟨hargument, hcomments⟩ := h
    rw [Attribute.places, List.forall_mem_append] at hp
    rw [Attribute.document]
    have hallow : host.Allows C (.jsxSpreadAttribute :: ancestors) := hhost.allows rfl ancestors
    have hprinted := Expression.always_keeps_spread hhost hkeep hallow argument hargument hp.1 hp.2
    refine always_bind (hprinted.imp fun _ hprinted => ?_)
    have hattached : C.Comments argument.comments := fun s hs =>
      hargument s (argument.written_comments s hs)
    exact always_bind ((Brace.always_keeps_spread hhost hkeep hattached hprinted.1 hprinted.2).imp
      fun _ hdoc => hhost.always_around hkeep hcomments hdoc)
termination_by structural item

theorem Attribute.always_allKeep (hhost : host.Meets C) (hkeep : C.Keep o P Q)
    (ancestors : Ancestors) (items : List Attribute)
    (h : ∀ s ∈ Attribute.allWritten items, C.written s)
    (hp : ∀ place ∈ Attribute.allPlaces items, C.place place) :
    (Attribute.documents o ancestors items).Always host fun docs => ∀ doc ∈ docs, P doc := by
  match items with
  | [] =>
    rw [Attribute.documents]
    exact always_done nofun
  | first :: others =>
    rw [Attribute.allWritten, List.forall_mem_append] at h
    rw [Attribute.allPlaces, List.forall_mem_append] at hp
    rw [Attribute.documents]
    refine always_bind ((Attribute.always_keeps hhost hkeep ancestors first h.1 hp.1).imp
      fun _ hdoc => ?_)
    exact always_bind ((Attribute.always_allKeep hhost hkeep ancestors others h.2 hp.2).imp
      fun _ hdocs => always_done (List.forall_mem_cons.mpr ⟨hdoc, hdocs⟩))
termination_by structural items

theorem OpeningTag.always_keeps (hhost : host.Meets C) (hkeep : C.Keep o P Q)
    (ancestors : Ancestors) (tag : OpeningTag) (h : ∀ s ∈ tag.written, C.written s)
    (hp : ∀ place ∈ tag.places, C.place place) : (tag.document o ancestors).Always host P := by
  match tag with
  | ⟨name, typeArguments, attributes, selfClosing⟩ =>
    rw [OpeningTag.written, List.forall_mem_append, List.forall_mem_append] at h
    obtain ⟨hname, harguments, hattributes⟩ := h
    rw [OpeningTag.places] at hp
    rw [OpeningTag.document]
    refine always_bind ((Verbatim.always_keeps hhost hkeep hname).imp fun _ hname => ?_)
    refine always_bind ((Verbatim.always_keeps_optional hhost hkeep harguments).imp
      fun _ harguments => ?_)
    exact always_bind ((Attribute.always_allKeep hhost hkeep ancestors attributes hattributes
      hp).imp fun _ hdocs => always_done (hkeep.opening _ hname harguments hdocs))
termination_by structural tag

theorem Markup.always_keeps (hhost : host.Meets C) (hkeep : C.Keep o P Q)
    {ancestors : Ancestors} (hallow : host.Allows C ancestors) (markup : Markup)
    (h : ∀ s ∈ markup.written, C.written s) (hbody : C.place markup.ownBody)
    (hp : ∀ place ∈ markup.innerPlaces, C.place place) :
    (markup.document o ancestors false).Always host (ancestors.Keep P Q) := by
  match markup with
  | .element tag closing children comments =>
    rw [Markup.written, List.forall_mem_append, List.forall_mem_append, List.forall_mem_append] at h
    obtain ⟨htag, hclosing, hchildren, hcomments⟩ := h
    rw [Markup.innerPlaces, List.forall_mem_append] at hp
    rw [Markup.document]
    refine always_bind ((OpeningTag.always_keeps hhost hkeep _ tag htag hp.1).imp
      fun _ hopening => ?_)
    refine always_bind ((Markup.always_keeps_closing hhost hkeep hclosing).imp
      fun closingDoc hclosing => ?_)
    have helement : Ancestors.AddNoParens (.jsxElement :: ancestors) :=
      Ancestors.addNoParens_cons rfl ancestors
    refine always_bind ((Node.always_allKeep hhost hkeep helement children hchildren hp.2).imp
      fun _ hinside => ?_)
    refine Markup.always_keeps_surrounded hhost hkeep hallow hcomments
      (hkeep.body ?_ hopening hclosing.2 hinside.1 hinside.2)
    rw [Markup.ownBody, ← hclosing.1] at hbody
    exact hbody
  | .fragment openingComments closingComments children comments =>
    rw [Markup.written, List.forall_mem_append, List.forall_mem_append, List.forall_mem_append] at h
    obtain ⟨hopening, hclosing, hchildren, hcomments⟩ := h
    rw [Markup.innerPlaces, List.forall_mem_cons, List.forall_mem_cons] at hp
    obtain ⟨hfirst, hsecond, hinner⟩ := hp
    rw [Markup.document]
    refine always_bind ((Tag.always_keeps_fragment hhost hkeep hopening hfirst).1.imp
      fun _ hopening => ?_)
    refine always_bind ((Tag.always_keeps_fragment hhost hkeep hclosing hsecond).2.imp
      fun closingDoc hclosing => ?_)
    have hfragment : Ancestors.AddNoParens (.jsxFragment :: ancestors) :=
      Ancestors.addNoParens_cons rfl ancestors
    refine always_bind ((Node.always_allKeep hhost hkeep hfragment children hchildren hinner).imp
      fun _ hinside => ?_)
    refine Markup.always_keeps_surrounded hhost hkeep hallow hcomments
      (hkeep.body hbody hopening (fun doc hdoc => ?_) hinside.1 hinside.2)
    cases hdoc
    exact hclosing
termination_by structural markup

/-- **Every node keeps the property**: its document has it, if what is written in the tree, the
places that may hold nothing and the host are as asked. -/
theorem Node.always_keeps (hhost : host.Meets C) (hkeep : C.Keep o P Q)
    {ancestors : Ancestors} (hallow : host.Allows C ancestors) (node : Node)
    (h : ∀ s ∈ node.written, C.written s) (hp : ∀ place ∈ node.places, C.place place) :
    (node.document o ancestors false).Always host (ancestors.Keep P Q) := by
  match node with
  | .text raw =>
    rw [Node.written] at h
    rw [Node.document]
    exact hkeep.always (always_done (hkeep.text (h raw (List.mem_singleton_self raw))))
  | .markup markup =>
    rw [Node.written] at h
    rw [Node.places, List.forall_mem_cons] at hp
    rw [Node.document]
    exact Markup.always_keeps hhost hkeep hallow markup h hp.1 hp.2
  | .container container =>
    rw [Node.written] at h
    rw [Node.places] at hp
    rw [Node.document]
    exact hkeep.always (Container.always_keeps hhost hkeep ancestors container h hp)
  | .spreadChild expression =>
    rw [Node.written] at h
    rw [Node.places, List.forall_mem_append] at hp
    rw [Node.document]
    have hallow : host.Allows C (.jsxSpreadChild :: ancestors) := hhost.allows rfl ancestors
    have hprinted := Expression.always_keeps_spread hhost hkeep hallow expression h hp.1 hp.2
    have hattached : C.Comments expression.comments :=
      fun s hs => h s (expression.written_comments s hs)
    exact hkeep.always (always_bind (hprinted.imp fun _ hprinted =>
      Brace.always_keeps_spread hhost hkeep hattached hprinted.1 hprinted.2))
  | .attr item =>
    rw [Node.written] at h
    rw [Node.places] at hp
    rw [Node.document]
    exact hkeep.always (Attribute.always_keeps hhost hkeep ancestors item h hp)
  | .openingTag tag =>
    rw [Node.written] at h
    rw [Node.places] at hp
    rw [Node.document]
    exact hkeep.always (OpeningTag.always_keeps hhost hkeep ancestors tag h hp)
  | .closingTag name =>
    rw [Node.written] at h
    rw [Node.document]
    exact hkeep.always (Tag.always_keeps_closing hhost hkeep h)
  | .openingFragment comments =>
    rw [Node.written] at h
    rw [Node.places, List.forall_mem_singleton] at hp
    rw [Node.document]
    exact hkeep.always (Tag.always_keeps_fragment hhost hkeep h hp).1
  | .closingFragment comments =>
    rw [Node.written] at h
    rw [Node.places, List.forall_mem_singleton] at hp
    rw [Node.document]
    exact hkeep.always (Tag.always_keeps_fragment hhost hkeep h hp).2
  | .emptyExpression comments =>
    rw [Node.written] at h
    rw [Node.places, List.forall_mem_singleton] at hp
    rw [Node.document]
    refine hkeep.always ((Brace.always_empty hhost.verbatim comments).imp ?_)
    rintro _ rfl
    exact hkeep.lone h hp
termination_by structural node

/-- Children have parents that add no parentheses, so **each of them has all** of the property. -/
theorem Node.always_allKeep (hhost : host.Meets C) (hkeep : C.Keep o P Q)
    {ancestors : Ancestors} (hnone : ancestors.AddNoParens) (nodes : List Node)
    (h : ∀ s ∈ Node.allWritten nodes, C.written s)
    (hp : ∀ place ∈ Node.allPlaces nodes, C.place place) :
    (Node.children o ancestors nodes).Always host fun children =>
      List.Forall₂ Node.IsChild nodes children ∧ ∀ kind doc, .printed kind doc ∈ children →
        P doc := by
  match nodes with
  | [] =>
    rw [Node.children]
    exact always_done ⟨.nil, nofun⟩
  | first :: others =>
    rw [Node.allWritten, List.forall_mem_append] at h
    obtain ⟨hfirst, hothers⟩ := h
    rw [Node.allPlaces, List.forall_mem_append] at hp
    have hlater := Node.always_allKeep hhost hkeep hnone others hothers hp.2
    rw [Node.children]
    cases htext : first.asText? with
    | some raw =>
      refine always_bind (always_done ?_)
      refine always_bind (hlater.imp fun _ hchildren => always_done ⟨.cons ?_ hchildren.1, ?_⟩)
      · rw [Node.IsChild, htext]
      · exact fun kind doc hmem => hchildren.2 kind doc ((List.mem_cons.mp hmem).resolve_left nofun)
    | none =>
      rw [htext] at hfirst
      dsimp only
      rw [map_eq_pure_bind]
      have hdoc := Node.always_keeps hhost hkeep (.inl hnone) first hfirst hp.1
      refine always_bind (always_bind (hdoc.imp fun doc hdoc => always_done ?_))
      refine always_bind (hlater.imp fun _ hchildren => always_done ⟨.cons ?_ hchildren.1, ?_⟩)
      · rw [Node.IsChild, htext]
        exact ⟨doc, rfl⟩
      · intro kind other hmem
        obtain heq | hmem := List.mem_cons.mp hmem
        · cases heq
          exact hdoc.2 hnone
        · exact hchildren.2 kind other hmem
termination_by structural nodes

end

end Reflow
