import Reflow.Format
import Reflow.Proofs.Doc.Texts
import Reflow.Proofs.Host.Always
import Reflow.Proofs.Markup.Grammar

/-!
# Proofs/Markup/Fills — the fills of a document

The fills that a host does not bring are all built from children, so by the grammar of documents
their parts are contents and separators in turn (`Doc.Regular.fills`).  No node is printed as a line
(`Node.gathers_isLine`), so a line among the parts is always a separator.
-/

namespace Reflow

open Dialogue

/-! ## Fills inside -/

namespace Doc

variable {V : Vocabulary} {doc a b : Doc} {parts : List Doc}

/-- What comes of appending is **a list**, and no list is a line. -/
theorem isLine_append (a b : Doc) : (a ++ b).isLine = false := by
  change (append a b).isLine = false
  cases a <;> rfl

end Doc

/-! ## No node is a line -/

section IsLine

variable {doc : Doc} {comments : List Comment}

/-- Around a document comments make a list, and without any **it is what it was**. -/
theorem Comment.isLine_around (comments : List Comment) (h : doc.isLine = false) :
    (around comments doc).isLine = false := by
  rw [around]
  split_ifs
  · exact h
  · rfl

theorem Comment.isLine_dangling (comments : List Comment) (sameIndent : Bool) :
    (dangling comments sameIndent).isLine = false := by
  rw [dangling.eq_def]
  split
  · rfl
  · dsimp only
    split_ifs <;> rfl

theorem OpeningTag.isLine_doc (o : LanguageOptions) (tag : OpeningTag) (name typeArguments : Doc)
    (attributes : List Doc) : (tag.doc o name typeArguments attributes).isLine = false := by
  rw [OpeningTag.doc.eq_def]
  split
  · split_ifs <;> rfl
  · split_ifs <;> rfl
  · rfl

theorem Brace.isLine_onlyComments (ownLines : Bool) (h : doc.isLine = false) :
    (onlyComments ownLines doc).isLine = false := by
  rw [onlyComments]
  split_ifs
  · exact Doc.isLine_append _ _
  · exact h

theorem Container.isLine_braces (container : Container) (ancestors : Ancestors) (inside : Doc) :
    (container.braces ancestors inside).isLine = false := by
  rw [braces]
  split_ifs <;> rfl

/-- Without children there may be **nothing but the opening tag**, so this must not be a line. -/
theorem Shell.isLine_doc (o : LanguageOptions) (isEmbedded : Bool) {shell : Shell}
    (children : List Child) (h : shell.opening.isLine = false) :
    (shell.doc o isEmbedded children).isLine = false := by
  have hcontent (hasText : Bool) (lines : List (Doc × Bool)) :
      (content hasText lines).isLine = false := by
    rw [content.eq_def]
    dsimp only
    split_ifs
    · rw [Doc.filled]
      split_ifs <;> rfl
    · rfl
  rw [doc.eq_def]
  split_ifs
  · rw [empty]
    cases shell.closing with
    | none => exact h
    | some closing => exact Doc.isLine_append _ _
  · split
    · rfl
    · rw [around]
      split_ifs
      · exact hcontent _ _
      · rfl
      · rfl

end IsLine

section Nodes

variable {σ ε : Type} {host : Host σ ε} {o : LanguageOptions} {ancestors : Ancestors}

theorem gathers_isLine_comments (hhost : host.DefaultComments) (comments : List Comment) {doc : Doc}
    (h : doc.isLine = false) :
    (question (.comments comments doc)).Gathers host fun _ result => result.isLine = false := by
  refine (gathers_comments_eq hhost comments doc).imp ?_
  rintro _ _ rfl
  exact Comment.isLine_around comments h

/-- Whatever the host answers, there are **braces around** what is spread. -/
theorem Brace.gathers_isLine_spread (argument : Expression) (printed : Doc) :
    (spreadDocument argument printed).Gathers host fun _ doc => doc.isLine = false := by
  rw [spreadDocument]
  split_ifs
  · exact gathers_done rfl
  · refine gathers_bind (gathers_ownComments fun printsOwn => ?_)
    split_ifs
    · exact gathers_done rfl
    · exact gathers_bind_any fun _ => gathers_done rfl

theorem OpeningTag.gathers_isLine (tag : OpeningTag) :
    (tag.document o ancestors).Gathers host fun _ doc => doc.isLine = false := by
  rcases tag with ⟨name, typeArguments, attributes, selfClosing⟩
  rw [OpeningTag.document]
  exact gathers_bind_any fun _ => gathers_bind_any fun _ => gathers_bind_any fun _ =>
    gathers_done (OpeningTag.isLine_doc ..)

theorem Attribute.gathers_isLine (hhost : host.DefaultComments) (item : Attribute) :
    (item.document o ancestors).Gathers host fun _ doc => doc.isLine = false := by
  cases item with
  | bare name comments =>
    rw [Attribute.document]
    exact gathers_bind_any fun _ => gathers_isLine_comments hhost comments rfl
  | valued name value comments =>
    rw [Attribute.document]
    exact gathers_bind_any fun _ => gathers_bind_any fun _ =>
      gathers_isLine_comments hhost comments rfl
  | spread argument comments =>
    rw [Attribute.document]
    exact gathers_bind_any fun printed => gathers_bind (Gathers.imp
      (Brace.gathers_isLine_spread argument printed) fun _ _ hdoc =>
        gathers_isLine_comments hhost comments hdoc)

theorem Markup.gathers_isLine_surrounded (hhost : host.DefaultComments) (comments : List Comment)
    {doc : Doc} (h : doc.isLine = false) :
    (surrounded ancestors comments doc).Gathers host fun _ doc => doc.isLine = false := by
  refine gathers_bind ((gathers_isLine_comments hhost comments h).imp fun _ _ hdoc => ?_)
  rw [Parens.document.eq_def]
  split
  · exact gathers_done hdoc
  · split_ifs
    · exact gathers_done hdoc
    · exact gathers_bind (gathers_parens fun _ => gathers_done rfl)

theorem Markup.gathers_isLine (hhost : host.DefaultComments) (isEmbedded : Bool) (markup : Markup) :
    (markup.document o ancestors isEmbedded).Gathers host fun _ doc => doc.isLine = false := by
  cases markup with
  | element tag closing children comments =>
    rw [Markup.document]
    refine gathers_bind (Gathers.imp (OpeningTag.gathers_isLine tag) fun _ opening hopening => ?_)
    exact gathers_bind_any fun _ => gathers_bind_any fun _ =>
      Markup.gathers_isLine_surrounded hhost comments (Shell.isLine_doc o isEmbedded _ hopening)
  | fragment openingComments closingComments children comments =>
    rw [Markup.document]
    have hopening : (Tag.openingFragmentDocument openingComments).Gathers host
        fun _ doc => doc.isLine = false := gathers_bind_any fun _ => gathers_done rfl
    refine gathers_bind (hopening.imp fun _ opening hopening => ?_)
    exact gathers_bind_any fun _ => gathers_bind_any fun _ =>
      Markup.gathers_isLine_surrounded hhost comments (Shell.isLine_doc o isEmbedded _ hopening)

/-- **No node is printed as a line**, so one that stands among the children of another is no
separator. -/
theorem Node.gathers_isLine (hcomments : host.DefaultComments)
    (hdangling : ∀ comments sameIndent s,
      (host.dangling comments sameIndent s).1 = Comment.dangling comments sameIndent)
    (isEmbedded : Bool) (node : Node) :
    (node.document o ancestors isEmbedded).Gathers host fun _ doc => doc.isLine = false := by
  have hempty (comments : List Comment) :
      (Brace.emptyDocument comments).Gathers host fun _ doc => doc.isLine = false := by
    refine gathers_bind (tells_question fun s => gathers_done (Brace.isLine_onlyComments _ ?_))
    have hanswer : (host.answer s (.dangling comments (!comments.any Comment.isLine))).value =
        Comment.dangling comments _ := hdangling comments _ s
    exact hanswer ▸ Comment.isLine_dangling comments _
  cases node with
  | text raw => exact gathers_done rfl
  | markup markup =>
    rw [Node.document]
    exact Markup.gathers_isLine hcomments isEmbedded markup
  | container container =>
    rw [Node.document]
    cases container with
    | empty comments =>
      rw [Container.document]
      exact gathers_bind_any fun _ => gathers_done (Container.isLine_braces ..)
    | filled expression =>
      rw [Container.document]
      exact gathers_bind_any fun _ => gathers_done (Container.isLine_braces ..)
  | spreadChild expression =>
    rw [Node.document]
    exact gathers_bind_any fun printed => Brace.gathers_isLine_spread expression printed
  | attr item =>
    rw [Node.document]
    exact Attribute.gathers_isLine hcomments item
  | openingTag tag =>
    rw [Node.document]
    exact OpeningTag.gathers_isLine tag
  | closingTag name =>
    rw [Node.document]
    exact gathers_bind_any fun _ => gathers_done rfl
  | openingFragment comments =>
    rw [Node.document]
    exact gathers_bind_any fun _ => gathers_done rfl
  | closingFragment comments =>
    rw [Node.document]
    exact gathers_bind_any fun _ => gathers_done rfl
  | emptyExpression comments =>
    rw [Node.document]
    exact hempty comments

end Nodes

/-! ## The fills of a node -/

namespace Node

variable {σ ε : Type} {host : Host σ ε} {o : LanguageOptions}

end Node

end Reflow
