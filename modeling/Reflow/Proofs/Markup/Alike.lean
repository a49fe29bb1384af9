import Reflow.Proofs.Host.Alike
import Reflow.Proofs.Markup.Children

/-!
# Proofs/Markup/Alike — trees that are alike are printed alike

Three definitions read the text of a child: it is classified for itself, its first word is looked at
by the child before it, and whether it counts as content by that child and by the element.  Of texts
that are alike all three say the same, so the parts of the children are the same
(`Part.arrange_congr`), and with them the document of the element (`Shell.doc_congr`).  The
dialogues of trees that are alike then agree, by recursion on the tree (`Node.agree_document`).
-/

namespace Reflow

/-! ## Children -/

/-- Children that are **alike**: texts that are, or the same document. -/
inductive Child.Alike : Child → Child → Prop
  | text {raw raw' : String} (h : Text.Alike raw raw') : Child.Alike (.text raw) (.text raw')
  | printed (kind : ChildKind) (doc : Doc) : Child.Alike (.printed kind doc) (.printed kind doc)

namespace Child

variable {child child' : Child} {children children' : List Child}

namespace Alike

/-- Children that are alike are **of one kind**, and only the kind is looked at here. -/
theorem isUnclosed_eq (h : child.Alike child') : child.isUnclosed = child'.isUnclosed := by
  cases h <;> rfl

theorem isMarkup_eq (h : child.Alike child') :
    child.isMarkup = child'.isMarkup := by cases h <;> rfl

theorem isContainer_eq (h : child.Alike child') : child.isContainer = child'.isContainer := by
  cases h <;> rfl

/-- Texts that are alike **count as content together**. -/
theorem isMeaningfulText_eq (h : child.Alike child') :
    child.isMeaningfulText = child'.isMeaningfulText := by
  cases h with
  | text h => exact h.isMeaningful_eq
  | printed => rfl

end Alike

/-- **Nothing but blanks** is said of a single text, and of one that is alike it is said as well. -/
theorem noContent_congr (h : List.Forall₂ Alike children children') :
    noContent children = noContent children' := by
  match h with
  | .nil => rfl
  | .cons (.text hraw) .nil => exact congrArg not hraw.isMeaningful_eq
  | .cons (.printed ..) .nil => rfl
  | .cons (.text _) (.cons _ _) => rfl
  | .cons (.printed ..) (.cons _ _) => rfl

theorem countP_isContainer_congr (h : List.Forall₂ Alike children children') :
    children.countP isContainer = children'.countP isContainer := by
  induction h with
  | nil => rfl
  | cons hchild _ ih => rw [List.countP_cons, List.countP_cons, hchild.isContainer_eq, ih]

/-- The child that stands first is alike to the one that does so **in the other
list**, if there is one. -/
theorem rel_head? (h : List.Forall₂ Alike children children') :
    Option.Rel Alike children.head? children'.head? := by
  cases h with
  | nil => exact .none
  | cons hchild => exact .some hchild

end Child

/-! ## Parts -/

namespace Part

variable {child child' : Child} {next next' : Option Child} (localized : Bool) (word : String)

/-- Whether a word stands alone is **asked of the children** on both sides of it. -/
theorem standsAlone_congr (h : child.Alike child') (hnext : Option.Rel Child.Alike next next') :
    standsAlone word child next = standsAlone word child' next' := by
  rw [standsAlone, standsAlone, h.isUnclosed_eq]
  cases hnext with
  | none => rfl
  | some hnext => rw [Option.any_some, Option.any_some, hnext.isUnclosed_eq]

theorem separatorWithout_congr (h : child.Alike child')
    (hnext : Option.Rel Child.Alike next next') :
    separatorWithout localized word child next = separatorWithout localized word child' next' := by
  rw [separatorWithout, separatorWithout, standsAlone_congr word h hnext]

/-- The separator for a line break in the text goes by whether the word stands alone, and otherwise
by **the word itself**. -/
theorem separatorForBreak_congr (h : child.Alike child')
    (hnext : Option.Rel Child.Alike next next') :
    separatorForBreak localized word child next =
      separatorForBreak localized word child' next' := by
  rw [separatorForBreak, separatorForBreak, standsAlone_congr word h hnext]

/-- Before a text the separator depends on **whether it counts and on its first word**. -/
theorem separatorAfter_congr (h : child.Alike child') (hnext : Option.Rel Child.Alike next next') :
    separatorAfter localized child next = separatorAfter localized child' next' := by
  cases hnext with
  | none => rfl
  | some hnext =>
    cases hnext with
    | printed => rfl
    | text hraw =>
      rw [separatorAfter, separatorAfter, hraw.isMeaningful_eq, hraw.firstWord_eq,
        separatorWithout_congr localized _ h (.some (.text hraw))]

variable {run run' : Option Whitespace}

/-- Of the run at an edge it matters only **whether it spans lines**. -/
theorem ofLeading_congr (h : child.Alike child') (hnext : Option.Rel Child.Alike next next')
    (hrun : run.map Whitespace.spansLines = run'.map Whitespace.spansLines) :
    ofLeading localized word child next run = ofLeading localized word child' next' run' := by
  have hbreak := separatorForBreak_congr localized word h hnext
  rcases run with _ | _ | _ | _ <;> rcases run' with _ | _ | _ | _ <;> cases hrun
  all_goals first | rfl | exact congrArg (fun part => [.empty, part]) hbreak

theorem ofTrailing_congr (h : child.Alike child') (hnext : Option.Rel Child.Alike next next')
    (hrun : run.map Whitespace.spansLines = run'.map Whitespace.spansLines) :
    ofTrailing localized word child next run = ofTrailing localized word child' next' run' := by
  have hbreak := separatorForBreak_congr localized word h hnext
  rcases run with _ | _ | _ | _ <;> rcases run' with _ | _ | _ | _ <;> cases hrun
  all_goals first | rfl | exact hbreak | exact separatorWithout_congr localized word h hnext

/-- What a text is broken into goes by **what it is read as**, and texts that are
alike are read alike. -/
theorem ofText_congr {content content' : TextContent} (h : child.Alike child')
    (hnext : Option.Rel Child.Alike next next') (hcontent : content.Alike content') :
    ofText localized child next content = ofText localized child' next' content' := by
  cases hcontent with
  | blank run => cases run <;> rfl
  | words ws hleading htrailing =>
    rw [ofText, ofText, ofLeading_congr localized _ h hnext hleading,
      ofTrailing_congr localized _ h hnext htrailing]

theorem ofChild_congr (h : child.Alike child') (hnext : Option.Rel Child.Alike next next') :
    ofChild localized child next = ofChild localized child' next' := by
  cases h with
  | text hraw => exact ofText_congr localized (.text hraw) hnext (TextContent.alike_ofText hraw)
  | printed kind doc =>
    rw [ofChild, ofChild, separatorAfter_congr localized (.printed kind doc) hnext]

variable {children children' : List Child}

/-- A child is looked at together with **the one behind it**, so the induction is on
both lists at once. -/
theorem ofChildren_congr (h : List.Forall₂ Child.Alike children children') :
    ofChildren localized children = ofChildren localized children' := by
  induction h with
  | nil => rfl
  | cons hchild hrest ih =>
    rw [ofChildren, ofChildren, ofChild_congr localized hchild (Child.rel_head? hrest), ih]

/-- Children that are alike are **arranged alike**. -/
theorem arrange_congr (hasText : Bool) (h : List.Forall₂ Child.Alike children children') :
    arrange localized hasText children = arrange localized hasText children' := by
  rw [arrange, arrange, ofChildren_congr localized h]

end Part

/-! ## Elements and tags -/

namespace Shell

variable {o : LanguageOptions} {shell : Shell} {children children' : List Child}

theorem mustBreak_congr (h : List.Forall₂ Child.Alike children children')
    (lines : List (Doc × Bool)) :
    shell.mustBreak children lines = shell.mustBreak children' lines := by
  rw [mustBreak, mustBreak, any_eq_of_forall₂ h fun _ _ hchild => hchild.isMarkup_eq,
    Child.countP_isContainer_congr h]

/-- Around children a shell asks **whether there is text, what the parts are** and
whether it must break. -/
theorem around_congr (isEmbedded : Bool) (h : List.Forall₂ Child.Alike children children') :
    shell.around o isEmbedded children = shell.around o isEmbedded children' := by
  simp only [around, any_eq_of_forall₂ h fun _ _ hchild => hchild.isMeaningfulText_eq,
    Part.arrange_congr shell.isLocalized _ h, mustBreak_congr h]

theorem doc_of_text (o : LanguageOptions) (isEmbedded : Bool) (shell : Shell) (raw : String) :
    shell.doc o isEmbedded [.text raw] =
      if shell.isElement && Child.noContent [.text raw] then shell.empty
      else shell.around o isEmbedded [.text raw] := rfl

/-- A shell around children that are alike is **the same document**. -/
theorem doc_congr (isEmbedded : Bool) (h : List.Forall₂ Child.Alike children children') :
    shell.doc o isEmbedded children = shell.doc o isEmbedded children' := by
  have haround := @around_congr o shell _ _ isEmbedded h
  cases h with
  | nil => rfl
  | cons hfirst hrest =>
    cases hrest with
    | cons =>
      rw [doc_of_several o isEmbedded shell (Nat.le_add_left 2 _),
        doc_of_several o isEmbedded shell (Nat.le_add_left 2 _), haround]
    | nil =>
      cases hfirst with
      | printed => rfl
      | text hraw =>
        rw [doc_of_text, doc_of_text, Child.noContent_congr (.cons (.text hraw) .nil), haround]

end Shell

variable {o : LanguageOptions}

namespace OpeningTag.Alike

variable {tag tag' : OpeningTag}

/-- Attributes that are alike span lines together and have the same comments, so a tag spreads them
**in the same way**. -/
theorem spread_eq (h : tag.Alike tag') (name typeArguments : Doc) (docs : List Doc) :
    tag.spread o name typeArguments docs = tag'.spread o name typeArguments docs := by
  obtain ⟨_, _, hitems, _⟩ := h
  have hlast (items : List Attribute) :
      (items.getLast?.any fun last => last.comments.any Comment.isTrailing) =
        ((items.map Attribute.comments).getLast?.any fun comments =>
          comments.any Comment.isTrailing) := by
    rw [List.getLast?_map, Option.any_map]
  simp only [spread, bracketSameLine, nameHasComments, hitems.any_isMultilineString_eq,
    hitems.isEmpty_eq, hlast, hitems.map_comments_eq]

/-- A single attribute stays on the line of the tag if it is **a string on one line**, and strings
are alike to themselves alone. -/
theorem doc_eq (h : tag.Alike tag') (name typeArguments : Doc) (docs : List Doc) :
    tag.doc o name typeArguments docs = tag'.doc o name typeArguments docs := by
  have hspread := @spread_eq o _ _ h name typeArguments docs
  obtain ⟨_, _, hitems, _⟩ := h
  cases hitems with
  | nil => rfl
  | cons hfirst tail =>
    cases tail with
    | cons => exact hspread
    | nil =>
      match docs with
      | [] => exact hspread
      | [only] =>
        simp only [doc, hfirst.isPlainString_eq, hspread]
        rfl
      | _ :: _ :: _ => exact hspread

theorem ofElement_eq (h : tag.Alike tag') (opening : Doc) (closing : Option Doc) :
    Shell.ofElement tag opening closing = Shell.ofElement tag' opening closing := by
  obtain ⟨_, _, hitems, _⟩ := h
  rw [Shell.ofElement, Shell.ofElement, hitems.length_eq]

end OpeningTag.Alike

/-- Braces hug a foreign expression by its form and never hug markup, so **the
layout is the same**. -/
theorem Container.Alike.braces_eq {braces braces' : Container} (h : braces.Alike braces')
    (ancestors : Ancestors) (inside : Doc) :
    braces.braces ancestors inside = braces'.braces ancestors inside := by
  rcases h with _ | ⟨_ | _⟩ <;> rfl

namespace Node.Alike

variable {node node' : Node}

/-- Nodes that are alike are **text to their neighbours** together. -/
theorem asText?_eq (h : node.Alike node') : node.asText? = node'.asText? := by
  cases h with
  | container hbraces => rw [asText?, asText?, hbraces.isSpelledSpace_eq]
  | text | markup | spreadChild | attr | openingTag | closingTag | openingFragment | closingFragment
  | emptyExpression => rfl

/-- What braces enclose counts for the kind only as **being a template or not**. -/
theorem childKind_eq (h : node.Alike node') : node.childKind = node'.childKind := by
  cases h with
  | container hbraces => rw [childKind, childKind, hbraces.isTemplate_eq]
  | markup hvalue => cases hvalue <;> rfl
  | text | spreadChild | attr | openingTag | closingTag | openingFragment | closingFragment
  | emptyExpression => rfl

end Node.Alike

/-! ## Dialogues -/

open Dialogue

variable {σ ε : Type} {host : Host σ ε}

/-- Of what is spread the host is told the comments, and asked **about the expression itself** only
if there are some. -/
theorem Brace.agree_spread {argument argument' : Expression} (h : argument.Alike argument')
    (printed : Doc) :
    (spreadDocument argument printed).Agree host Eq (spreadDocument argument' printed) := by
  rw [spreadDocument, spreadDocument, ← h.comments_eq]
  split_ifs
  -- without comments on the argument the host is not asked about it
  · exact agree_rfl _
  · exact (agree_ownComments h).then fun _ => agree_rfl _

mutual

/-- A foreign expression is alike to itself alone, so **the host is asked the same**. -/
theorem Expression.agree_document (ancestors : Ancestors) (e : Expression) {e' : Expression}
    (h : e.Alike e') : (e.document o ancestors).Agree host Eq (e'.document o ancestors) := by
  match e, h with
  | .foreign _, .foreign _ => exact agree_rfl _
  | .markup node _ comments, .markup hnode _ _ =>
    rw [Expression.document, Expression.document]
    exact (Node.agree_document ancestors false node hnode).then fun _ => agree_rfl _
termination_by structural e

theorem Container.agree_document (ancestors : Ancestors) (braces : Container) {braces' : Container}
    (h : braces.Alike braces') :
    (braces.document o ancestors).Agree host Eq (braces'.document o ancestors) := by
  match braces, h with
  | .empty _, .empty _ => exact agree_rfl _
  | .filled e, .filled he =>
    rw [Container.document, Container.document]
    refine (Expression.agree_document _ e he).then fun inside => ?_
    rw [(Container.Alike.filled he).braces_eq]
    exact agree_rfl _
termination_by structural braces

theorem AttributeValue.agree_document (ancestors : Ancestors) (value : AttributeValue)
    {value' : AttributeValue} (h : value.Alike value') :
    (value.document o ancestors).Agree host Eq (value'.document o ancestors) := by
  match value, h with
  | .string _, .string _ => exact agree_rfl _
  | .container braces, .container hbraces =>
    rw [AttributeValue.document, AttributeValue.document]
    exact Container.agree_document ancestors braces hbraces
  | .markup markup, .markup hmarkup =>
    rw [AttributeValue.document, AttributeValue.document]
    exact Markup.agree_document ancestors false markup hmarkup
termination_by structural value

theorem Attribute.agree_document (ancestors : Ancestors) (item : Attribute) {item' : Attribute}
    (h : item.Alike item') :
    (item.document o ancestors).Agree host Eq (item'.document o ancestors) := by
  match item, h with
  | .bare _ _, .bare _ _ => exact agree_rfl _
  | .valued _ value _, .valued _ hvalue _ =>
    rw [Attribute.document, Attribute.document]
    exact (agree_rfl _).then fun _ =>
      (AttributeValue.agree_document _ value hvalue).then fun _ => agree_rfl _
  | .spread argument _, .spread hargument _ =>
    rw [Attribute.document, Attribute.document]
    exact (Expression.agree_document _ argument hargument).then fun printed =>
      (Brace.agree_spread hargument printed).then fun _ => agree_rfl _
termination_by structural item

theorem Attribute.agree_documents (ancestors : Ancestors) (items : List Attribute)
    {items' : List Attribute} (h : Attribute.AllAlike items items') :
    (Attribute.documents o ancestors items).Agree host Eq
      (Attribute.documents o ancestors items') := by
  match items, h with
  | [], .nil => exact agree_rfl _
  | first :: others, .cons hfirst tail =>
    rw [Attribute.documents, Attribute.documents]
    exact (Attribute.agree_document ancestors first hfirst).then fun _ =>
      (Attribute.agree_documents ancestors others tail).then fun _ => agree_rfl _
termination_by structural items

/-- The documents of the attributes are the same by recursion, and the tag lays them out **in the
same way**. -/
theorem OpeningTag.agree_document (ancestors : Ancestors) (tag : OpeningTag) {tag' : OpeningTag}
    (h : tag.Alike tag') :
    (tag.document o ancestors).Agree host Eq (tag'.document o ancestors) := by
  match tag, h with
  | ⟨_, _, attributes, _⟩, .mk name typeArguments hitems selfClosing =>
    rw [OpeningTag.document, OpeningTag.document]
    refine (agree_rfl _).then fun nameDoc => (agree_rfl _).then fun argumentsDoc =>
      (Attribute.agree_documents ancestors attributes hitems).then fun docs => ?_
    rw [(OpeningTag.Alike.mk name typeArguments hitems selfClosing).doc_eq]
    exact agree_rfl _
termination_by structural tag

/-- The children come to **children that are alike**, and around these the shell is
the same document. -/
theorem Markup.agree_document (ancestors : Ancestors) (isEmbedded : Bool) (markup : Markup)
    {markup' : Markup} (h : markup.Alike markup') :
    (markup.document o ancestors isEmbedded).Agree host Eq
      (markup'.document o ancestors isEmbedded) := by
  match markup, h with
  | .element tag closing children comments, .element htag _ hchildren _ =>
    rw [Markup.document, Markup.document]
    refine (OpeningTag.agree_document _ tag htag).then fun opening =>
      (agree_rfl _).then fun closing =>
      (Node.agree_children _ children hchildren).bind fun inside inside' hinside => ?_
    rw [htag.ofElement_eq, Shell.doc_congr isEmbedded hinside]
    exact agree_rfl _
  | .fragment _ _ children comments, .fragment _ _ hchildren _ =>
    rw [Markup.document, Markup.document]
    refine (agree_rfl _).then fun opening => (agree_rfl _).then fun closing =>
      (Node.agree_children _ children hchildren).bind fun inside inside' hinside => ?_
    rw [Shell.doc_congr isEmbedded hinside]
    exact agree_rfl _
termination_by structural markup

/-- Nodes that are alike **are printed alike**. -/
theorem Node.agree_document (ancestors : Ancestors) (isEmbedded : Bool) (node : Node) {node' : Node}
    (h : node.Alike node') :
    (node.document o ancestors isEmbedded).Agree host Eq
      (node'.document o ancestors isEmbedded) := by
  match node, h with
  | .text _, .text _ => exact agree_rfl _
  | .markup markup, .markup hmarkup =>
    rw [Node.document, Node.document]
    exact Markup.agree_document ancestors isEmbedded markup hmarkup
  | .container braces, .container hbraces =>
    rw [Node.document, Node.document]
    exact Container.agree_document ancestors braces hbraces
  | .spreadChild e, .spreadChild he =>
    rw [Node.document, Node.document]
    exact (Expression.agree_document _ e he).then fun printed => Brace.agree_spread he printed
  | .attr item, .attr hitem =>
    rw [Node.document, Node.document]
    exact Attribute.agree_document ancestors item hitem
  | .openingTag tag, .openingTag htag =>
    rw [Node.document, Node.document]
    exact OpeningTag.agree_document ancestors tag htag
  | .closingTag _, .closingTag _ => exact agree_rfl _
  | .openingFragment _, .openingFragment _ => exact agree_rfl _
  | .closingFragment _, .closingFragment _ => exact agree_rfl _
  | .emptyExpression _, .emptyExpression _ => exact agree_rfl _
termination_by structural node

/-- Of children that are alike come **children that are alike**. -/
theorem Node.agree_children (ancestors : Ancestors) (nodes : List Node) {nodes' : List Node}
    (h : Node.AllAlike nodes nodes') :
    (Node.children o ancestors nodes).Agree host (List.Forall₂ Child.Alike)
      (Node.children o ancestors nodes') := by
  match nodes, nodes', h with
  | [], [], .nil => exact agree_done .nil
  -- a text that another one stands in for: neither is printed, and as children they are alike
  | .text _ :: others, .text _ :: _, .text hraw tail =>
    rw [Node.children, Node.children]
    exact (Node.agree_children ancestors others tail).bind fun _ _ hothers =>
      agree_done (.cons (.text hraw) hothers)
  | first :: others, first' :: others', .cons hfirst tail =>
    have hothers {child child' : Child} (hchild : child.Alike child') :
        (do return child :: (← Node.children o ancestors others)).Agree host
          (List.Forall₂ Child.Alike)
          (do return child' :: (← Node.children o ancestors others')) :=
      (Node.agree_children ancestors others tail).bind fun _ _ hothers =>
        agree_done (.cons hchild hothers)
    rw [Node.children, Node.children, ← hfirst.asText?_eq, ← hfirst.childKind_eq]
    cases first.asText? with
    -- a space spelled out is the same text on both sides
    | some raw => exact hothers (.text (.refl raw))
    | none =>
      rw [map_eq_pure_bind, map_eq_pure_bind]
      exact ((Node.agree_document ancestors false first hfirst).then fun doc =>
        agree_done (.printed first.childKind doc)).bind fun _ _ hchild => hothers hchild
termination_by structural nodes

end

end Reflow
