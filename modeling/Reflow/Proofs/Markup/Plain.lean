import Reflow.Markup.Document
import Reflow.Proofs.Host.Always
import Reflow.Proofs.Markup.Written

/-!
# Proofs/Markup/Plain — elements without attributes or comments

The tags of a plain element print one text each, so all there is to say about it is what stands
between them.  Its children are text, spaces that are spelled out, plain elements without children
and braces that hug what the host prints on one line.
-/

namespace Reflow

open Dialogue
open Lexeme (IsOwn spelling)

variable {σ ε : Type} {host : Host σ ε} {o : LanguageOptions} {ancestors : Ancestors}

/-! ## Tags -/

namespace OpeningTag

/-- An opening tag **without attributes**. -/
def plain (name : String) (selfClosing : Bool) : OpeningTag := ⟨⟨name, []⟩, none, [], selfClosing⟩

/-- The characters of a plain opening tag. -/
def chars (o : LanguageOptions) (name : String) (selfClosing : Bool) : List Char :=
  '<' :: (name.toList ++ ((plain name selfClosing).endOnLine o).toList)

/-- The document of a plain opening tag. -/
def plainDoc (o : LanguageOptions) (name : String) (selfClosing : Bool) : Doc :=
  (plain name selfClosing).doc o (.text name) .nil []

theorem isLineless_plainDoc (o : LanguageOptions) (name : String) (selfClosing : Bool) :
    (plainDoc o name selfClosing).isLineless = true := by
  cases selfClosing <;> rfl

theorem ownText_plainDoc (o : LanguageOptions) (name : String) (selfClosing : Bool) :
    (plainDoc o name selfClosing).ownText = chars o name selfClosing := by
  cases selfClosing with
  | true => simp [plainDoc, doc, plain, nameHasComments, Doc.ownText, Doc.ownTexts, Doc.nil, chars]
  | false => simp [plainDoc, doc, plain, spread, bracketSameLine, nameHasComments, endOnLine,
      Doc.ownText, Doc.ownTexts, Doc.nil, chars]

theorem always_plain (h : host.AddsNothing) (ancestors : Ancestors) (name : String)
    (selfClosing : Bool) :
    ((plain name selfClosing).document o ancestors).Always host
      (· = plainDoc o name selfClosing) := by
  rw [plain, document]
  refine always_bind ((h.always_comments _).imp ?_)
  rintro _ rfl
  exact always_done rfl

end OpeningTag

namespace Tag

/-- The characters of a closing tag, if there is one. -/
def closingChars : Option String → List Char
  | some name => '<' :: '/' :: (name.toList ++ ['>'])
  | none => []

theorem always_closing (h : host.AddsNothing) (name : Option String) :
    (Markup.closingDocument (name.map (⟨·, []⟩))).Always host
      (· = name.map fun name => closing (.text name)) := by
  rcases name with _ | name
  · exact always_done rfl
  · refine always_bind (always_bind ((h.always_comments (.text name)).imp ?_))
    rintro _ rfl
    exact always_done (always_done rfl)

end Tag

namespace Shell

/-- A **plain element** without its children. -/
def plain (o : LanguageOptions) (name : String) (selfClosing : Bool) (closing : Option String) :
    Shell :=
  ofElement (.plain name selfClosing) (OpeningTag.plainDoc o name selfClosing)
    (closing.map fun name => Tag.closing (.text name))

theorem printsTags_plain (o : LanguageOptions) (name : String) (selfClosing : Bool)
    (closing : Option String) :
    (plain o name selfClosing closing).PrintsTags (OpeningTag.chars o name selfClosing)
      (Tag.closingChars closing) := by
  constructor
  · rw [← OpeningTag.ownText_plainDoc]
    exact Doc.printsOnly_ownText _ (OpeningTag.isLineless_plainDoc o name selfClosing)
  · rcases closing with _ | name
    · exact Doc.printsOnly_ownText (.concat []) rfl
    · exact Doc.printsOnly_ownText (Tag.closing (.text name)) rfl

theorem suffixDepth_plain (o : LanguageOptions) (name : String) (selfClosing : Bool)
    (closing : Option String) :
    (plain o name selfClosing closing).opening.suffixDepth = 0 ∧
      (plain o name selfClosing closing).closingDoc.suffixDepth = 0 := by
  refine ⟨Doc.suffixDepth_of_isLineless _ (OpeningTag.isLineless_plainDoc o name selfClosing), ?_⟩
  rcases closing with _ | name <;> rfl

end Shell

/-! ## Elements -/

/-- A parent that adds **no parentheses**, or none at all. -/
def Ancestors.AddNoParens (ancestors : Ancestors) : Prop :=
  ∀ parent ∈ ancestors.head?, parent.suppressesParens = true

theorem Ancestors.addNoParens_nil : Ancestors.AddNoParens [] := fun _ hparent => by cases hparent

theorem Ancestors.addNoParens_cons {parent : Parent} (h : parent.suppressesParens = true)
    (ancestors : Ancestors) : Ancestors.AddNoParens (parent :: ancestors) := by
  intro parent' hparent
  cases hparent
  exact h

theorem Parens.always_document (h : ancestors.AddNoParens) (doc : Doc) :
    (Parens.document ancestors doc).Always host (· = doc) := by
  rcases ancestors with _ | ⟨parent, ancestors⟩
  · exact always_done rfl
  · rw [document, if_pos (h parent rfl)]
    exact always_done rfl

namespace Markup

/-- An element without attributes, type arguments or comments. -/
def plain (name : String) (selfClosing : Bool) (closing : Option String) (children : List Node) :
    Markup :=
  .element (.plain name selfClosing) (closing.map (⟨·, []⟩)) children []

/-- The document of a **plain element** is that of its shell around its children. -/
theorem always_plain (h : host.AddsNothing) (hparens : ancestors.AddNoParens) {name : String}
    {selfClosing isEmbedded : Bool} {closing : Option String} {nodes : List Node}
    {P : List Child → Prop}
    (hchildren : (Node.children o (.jsxElement :: ancestors) nodes).Always host P) :
    ((plain name selfClosing closing nodes).document o ancestors isEmbedded).Always host fun doc =>
      ∃ children, P children ∧
        doc = (Shell.plain o name selfClosing closing).doc o isEmbedded children := by
  rw [plain, document]
  refine always_bind ((OpeningTag.always_plain h _ name selfClosing).imp ?_)
  rintro _ rfl
  refine always_bind ((Tag.always_closing h closing).imp ?_)
  rintro _ rfl
  refine always_bind (hchildren.imp fun children hP => ?_)
  refine always_bind ((h.always_comments _).imp ?_)
  rintro _ rfl
  refine (Parens.always_document hparens _).imp ?_
  rintro _ rfl
  exact ⟨children, hP, rfl⟩

end Markup

/-! ## Children -/

namespace Node

/-- **Plain children** of an element, with their lexemes: texts that are not empty and open no tag
or braces, no two of them next to each other; spaces spelled out; elements `<name />`; and braces
that hug what the host prints on one line, which is not a quoted space. -/
inductive Plain (host : Host σ ε) (o : LanguageOptions) (ancestors : Ancestors) :
    (afterText : Bool) → List Node → List Lexeme → Prop
  | nil (afterText : Bool) : Plain host o ancestors afterText [] []
  | text {raw : String} {nodes : List Node} {lexemes : List Lexeme} (ne : raw ≠ "")
      (plain : ∀ c ∈ raw.toList, Lexeme.IsPlain c)
      (tail : Plain host o ancestors true nodes lexemes) :
      Plain host o ancestors false (text raw :: nodes) (Lexeme.ofText raw.toList ++ lexemes)
  | space {afterText : Bool} {braces : Container} {nodes : List Node} {lexemes : List Lexeme}
      (spelled : braces.isSpelledSpace = true) (tail : Plain host o ancestors false nodes lexemes) :
      Plain host o ancestors afterText (container braces :: nodes) (.spelled :: lexemes)
  | element {afterText : Bool} {nodes : List Node} {lexemes : List Lexeme} (name : String)
      (tail : Plain host o ancestors false nodes lexemes) :
      Plain host o ancestors afterText (markup (.plain name true none []) :: nodes)
        (.child (OpeningTag.chars o name true) :: lexemes)
  | noExpression {afterText : Bool} {nodes : List Node} {lexemes : List Lexeme}
      (tail : Plain host o ancestors false nodes lexemes) :
      Plain host o ancestors afterText (container (.empty []) :: nodes)
        (.child ['{', '}'] :: lexemes)
  | expression {afterText : Bool} {e : ForeignExpression} {printed : String} {nodes : List Node}
      {lexemes : List Lexeme}
      (hugged : (Container.filled (.foreign e)).isInline (.jsxElement :: ancestors) = true)
      (answer : ∀ s,
        (host.expression e (.jsxExpressionContainer :: .jsxElement :: ancestors) s).1 =
          .ok (.text printed))
      (line : '\n' ∉ printed.toList)
      (notQuoted : ∀ q : Quote, printed.toList ≠ [q.char, ' ', q.char])
      (tail : Plain host o ancestors false nodes lexemes) :
      Plain host o ancestors afterText (container (.filled (.foreign e)) :: nodes)
        (.child ('{' :: (printed.toList ++ ['}'])) :: lexemes)

/-! What each of them is as a child. -/

variable {afterText : Bool}

theorem asText?_space {braces : Container} (h : braces.isSpelledSpace = true) :
    (container braces).asText? = some " " := by
  rw [asText?, if_pos h]

/-- Braces that hug an expression are no space spelled out. -/
theorem asText?_hugged {e : ForeignExpression}
    (h : (Container.filled (.foreign e)).isInline ancestors = true) :
    (container (.filled (.foreign e))).asText? = none := by
  rw [asText?, if_neg]
  intro hspelled
  rw [Container.isSpelledSpace.eq_def] at hspelled
  split at hspelled
  · next heq =>
    cases heq
    simp [Container.isInline, ExpressionForm.isHugged] at h
  · cases hspelled

/-- An element `<name />` is the text of its tag. -/
theorem always_element (h : host.AddsNothing) (ancestors : Ancestors) (name : String) :
    ((markup (.plain name true none [])).document o (.jsxElement :: ancestors) false).Always host
      fun doc => (Content.printed doc).IsReadable ∧ doc.ownText = OpeningTag.chars o name true := by
  have hparens : Ancestors.AddNoParens (.jsxElement :: ancestors) :=
    Ancestors.addNoParens_cons rfl ancestors
  have hnone : (children o (.jsxElement :: .jsxElement :: ancestors) []).Always host (· = []) := by
    rw [children]
    exact always_done rfl
  refine (Markup.always_plain h hparens hnone).imp ?_
  rintro _ ⟨_, rfl, rfl⟩
  have hdoc : (Shell.plain o name true none).doc o false [] = OpeningTag.plainDoc o name true := rfl
  rw [hdoc]
  refine ⟨⟨.inl ?_, OpeningTag.isLineless_plainDoc o name true⟩,
    OpeningTag.ownText_plainDoc o name true⟩
  rw [OpeningTag.ownText_plainDoc]
  exact ⟨_, rfl⟩

/-- Braces that hug one line are **that line in braces**. -/
theorem hugging_readable {inside : Doc} (lineless : inside.isLineless = true)
    (line : '\n' ∉ inside.ownText)
    (notQuoted : ∀ q : Quote, inside.ownText ≠ [q.char, ' ', q.char]) :
    (Content.printed (Brace.hugging inside)).IsReadable ∧
      (Brace.hugging inside).ownText = '{' :: (inside.ownText ++ ['}']) := by
  have hown : (Brace.hugging inside).ownText = '{' :: (inside.ownText ++ ['}']) := by
    simp [Brace.hugging, Doc.grouped, Doc.ownText, Doc.ownTexts]
  have hlineless : (Brace.hugging inside).isLineless = true := by
    simp [Brace.hugging, Doc.grouped, Doc.isLineless, Doc.allLineless, lineless]
  refine ⟨⟨.inr ⟨inside.ownText, hown, line, fun q hq => ?_⟩, hlineless⟩, hown⟩
  rw [hown, spelling, List.cons.injEq] at hq
  exact notQuoted q (List.append_inj_left' hq.2 rfl)

theorem always_noExpression (h : host.AddsNothing) (ancestors : Ancestors) :
    ((container (.empty [])).document o ancestors false).Always host
      fun doc => (Content.printed doc).IsReadable ∧ doc.ownText = ['{', '}'] := by
  rw [document, Container.document]
  refine always_bind (always_bind (h.always_dangling.imp ?_))
  rintro _ rfl
  have hnothing : Brace.onlyComments ([].any Comment.isLine) .nil = .concat [] := rfl
  rw [hnothing]
  refine always_done (always_done ?_)
  exact hugging_readable rfl (by simp [Doc.ownText, Doc.ownTexts])
    (by simp [Doc.ownText, Doc.ownTexts])

theorem always_expression {e : ForeignExpression} {printed : String}
    (hugged : (Container.filled (.foreign e)).isInline (.jsxElement :: ancestors) = true)
    (answer : ∀ s,
      (host.expression e (.jsxExpressionContainer :: .jsxElement :: ancestors) s).1 =
        .ok (.text printed))
    (line : '\n' ∉ printed.toList)
    (notQuoted : ∀ q : Quote, printed.toList ≠ [q.char, ' ', q.char]) :
    ((container (.filled (.foreign e))).document o (.jsxElement :: ancestors) false).Always host
      fun doc => (Content.printed doc).IsReadable ∧
        doc.ownText = '{' :: (printed.toList ++ ['}']) := by
  rw [document, Container.document, Expression.document]
  refine always_bind ((Host.always_expression answer).imp ?_)
  rintro _ rfl
  refine always_done ?_
  rw [Container.braces, if_pos hugged]
  exact hugging_readable rfl line notQuoted

/-- A child that is not text comes before the children after it. -/
theorem always_children_cons {node : Node} (hnode : node.asText? = none) {own : List Char}
    (hdoc : (node.document o (.jsxElement :: ancestors) false).Always host
      fun doc => (Content.printed doc).IsReadable ∧ doc.ownText = own)
    {nodes : List Node} {lexemes : List Lexeme}
    (hnodes : (children o (.jsxElement :: ancestors) nodes).Always host
      fun children => Child.Written false children lexemes) :
    (children o (.jsxElement :: ancestors) (node :: nodes)).Always host
      fun children => Child.Written afterText children (.child own :: lexemes) := by
  rw [children, hnode]
  refine always_bind (always_map (hdoc.imp ?_))
  rintro doc ⟨hreadable, rfl⟩
  exact always_bind (hnodes.imp fun _ hw => always_done (.printed hreadable hw))

/-- Plain children are **children as they are written**. -/
theorem Plain.always_children (h : host.AddsNothing) {nodes : List Node} {lexemes : List Lexeme}
    (hplain : Plain host o ancestors afterText nodes lexemes) :
    (children o (.jsxElement :: ancestors) nodes).Always host
      fun children => Child.Written afterText children lexemes := by
  induction hplain with
  | nil =>
    rw [children]
    exact always_done (.nil _)
  | text ne plain _ ih =>
    rw [children]
    exact always_bind
      (always_done (always_bind (ih.imp fun _ hw => always_done (.text ne plain hw))))
  | space spelled _ ih =>
    rw [children, asText?_space spelled]
    exact always_bind (always_done (always_bind (ih.imp fun _ hw => always_done (.space hw))))
  | element name _ ih => exact always_children_cons rfl (always_element h ancestors name) ih
  | noExpression _ ih => exact always_children_cons rfl (always_noExpression h _) ih
  | expression hugged answer line notQuoted _ ih =>
    exact always_children_cons (asText?_hugged hugged)
      (always_expression hugged answer line notQuoted) ih

end Node

end Reflow
