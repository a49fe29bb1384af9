import Reflow.Proofs.Format.Wrapping
import Reflow.Proofs.Markup.Blocks

/-!
# Proofs/Format/Blocks — empty lines between children are kept

Children that take one line each, without text among them, are formatted one a line between their
tags.  An empty line is left between two of them where the source has one or more, and nowhere else
(`Node.format_blocks`).
-/

namespace Reflow

open Dialogue

variable {σ ε : Type} {host : Host σ ε}

/-! ## Documents on one line -/

namespace Doc

/-- A document that is printed **on one line** in braces: it has no lines, or need not break and has
room one level deep. -/
inductive IsOneLine (o : LayoutOptions) : Doc → List Char → Prop
  | lineless {doc : Doc} (h : doc.isLineless = true) : IsOneLine o doc doc.ownText
  | flat {doc : Doc} (h : doc.MayStayFlat)
      (room : o.indentWidth + (1 + Text.widths doc.flatTexts + 1) ≤ o.printWidth) :
      IsOneLine o doc (doc.flatTexts.flatMap String.toList)

/-- Braces around one line **stand on a line**. -/
theorem IsOneLine.standsOnLine_hugging {o : LayoutOptions} {doc : Doc} {line : List Char}
    (h : doc.IsOneLine o line) : (Brace.hugging doc).StandsOnLine o ('{' :: (line ++ ['}'])) := by
  cases h with
  | lineless h =>
    have hlineless : (Brace.hugging doc).isLineless = true := by
      simp [Brace.hugging, grouped, isLineless, allLineless, h]
    have hown : (Brace.hugging doc).ownText = '{' :: (doc.ownText ++ ['}']) := by
      simp [Brace.hugging, grouped, ownText, ownTexts]
    exact hown ▸ standsOnLine_of_isLineless o hlineless rfl
  | flat h room =>
    have hcontents : (concat [.text "\x7b", doc, .suffixBoundary, .text "\x7d"]).MayStayFlat := by
      refine .of_forall_mem fun part hpart => ?_
      simp only [List.mem_cons, List.not_mem_nil, or_false] at hpart
      obtain rfl | rfl | rfl | rfl := hpart
      · exact ⟨rfl, rfl, rfl⟩
      · exact h
      · exact ⟨rfl, rfl, rfl⟩
      · exact ⟨rfl, rfl, rfl⟩
    have htexts : (concat [.text "\x7b", doc, .suffixBoundary, .text "\x7d"]).flatTexts =
        "\x7b" :: (doc.flatTexts ++ ["\x7d"]) := rfl
    have hbraces : Text.width "\x7b" = 1 ∧ Text.widths ["\x7d"] = 1 := by decide
    have hroom : o.indentWidth + Text.widths ("\x7b" :: (doc.flatTexts ++ ["\x7d"])) ≤
        o.printWidth := by
      rw [Text.widths_cons, Text.widths_append, hbraces.1, hbraces.2]
      omega
    have hstands := hcontents.standsOnLine_grouped (htexts ▸ hroom)
    rw [htexts, List.flatMap_cons, List.flatMap_append] at hstands
    exact hstands

end Doc

/-! ## Tags -/

namespace OpeningTag

/-- A **self-closing tag** with a name, perhaps with type arguments, and nothing else. -/
def selfClosed (name : String) (typeArguments : Option String) : OpeningTag :=
  ⟨⟨name, []⟩, typeArguments.map (⟨·, []⟩), [], true⟩

/-- Its characters. -/
def selfClosedChars (o : LanguageOptions) (name : String) (typeArguments : Option String) :
    List Char :=
  '<' :: (name.toList ++ (typeArguments.elim [] String.toList ++
    ((selfClosed name typeArguments).endOnLine o).toList))

/-- Its document. -/
def selfClosedDoc (o : LanguageOptions) (name : String) (typeArguments : Option String) : Doc :=
  (selfClosed name typeArguments).doc o (.text name) (typeArguments.elim .nil .text) []

theorem always_selfClosed (h : host.AddsNothing) (o : LanguageOptions) (ancestors : Ancestors)
    (name : String) (typeArguments : Option String) :
    ((selfClosed name typeArguments).document o ancestors).Always host
      (· = selfClosedDoc o name typeArguments) := by
  rw [selfClosed, document]
  refine always_bind ((h.always_comments _).imp ?_)
  rintro _ rfl
  rcases typeArguments with _ | arguments
  · exact always_done rfl
  · refine always_bind ((h.always_comments _).imp ?_)
    rintro _ rfl
    exact always_done rfl

theorem standsOnLine_selfClosedDoc (o : Options) (name : String) (typeArguments : Option String) :
    (selfClosedDoc o.language name typeArguments).StandsOnLine o.layout
      (selfClosedChars o.language name typeArguments) := by
  have hlineless : (selfClosedDoc o.language name typeArguments).isLineless = true := by
    cases typeArguments <;> rfl
  have hown : (selfClosedDoc o.language name typeArguments).ownText =
      selfClosedChars o.language name typeArguments := by
    cases typeArguments <;>
      simp [selfClosedDoc, selfClosedChars, selfClosed, doc, nameHasComments, Doc.ownText,
        Doc.ownTexts, Doc.nil]
  have hne : (selfClosedDoc o.language name typeArguments).isEmpty = false := by
    cases typeArguments <;> rfl
  exact hown ▸ Doc.standsOnLine_of_isLineless o.layout hlineless hne

end OpeningTag

/-- A tag **without attributes and comments** around children. -/
inductive BareTag where
  | element (name : String) (typeArguments : Option String) (closing : String)
  | fragment

namespace BareTag

/-- What the tag is to the children between its ends. -/
def parent : BareTag → Parent
  | element .. => .jsxElement
  | fragment => .jsxFragment

def markup (children : List Node) : BareTag → Markup
  | element name typeArguments closing =>
    .element (.bare name typeArguments) (some ⟨closing, []⟩) children []
  | fragment => .fragment [] [] children []

def shell (o : LanguageOptions) : BareTag → Shell
  | element name typeArguments closing => .bare o name typeArguments closing
  | fragment => .ofFragment (Tag.openingFragment [] .nil) (Tag.closingFragment [] .nil)

/-- The characters of the opening tag. -/
def opening : BareTag → List Char
  | element name typeArguments _ =>
    '<' :: (name.toList ++ (typeArguments.elim [] String.toList ++ ['>']))
  | fragment => ['<', '>']

/-- The characters of the closing tag. -/
def closing : BareTag → List Char
  | element _ _ closing => '<' :: '/' :: (closing.toList ++ ['>'])
  | fragment => ['<', '/', '>']

theorem hasLinelessTags_shell (o : LanguageOptions) (tag : BareTag) :
    (tag.shell o).HasLinelessTags := by
  cases tag with
  | element name typeArguments closing =>
    exact Shell.hasLinelessTags_bare o name typeArguments closing
  | fragment => exact ⟨rfl, rfl, rfl, rfl⟩

theorem ownText_shell (o : LanguageOptions) (tag : BareTag) :
    (tag.shell o).opening.ownText = tag.opening ∧
      (tag.shell o).closingDoc.ownText = tag.closing := by
  cases tag with
  | element name typeArguments closing =>
    obtain ⟨hopening, hclosing⟩ := Shell.flatTexts_bare o name typeArguments closing
    have htags := Shell.hasLinelessTags_bare o name typeArguments closing
    rw [shell, ← Doc.flatMap_flatTexts_of_isLineless _ htags.opening, hopening,
      ← Doc.flatMap_flatTexts_of_isLineless _ htags.closing, hclosing]
    cases typeArguments <;> simp [OpeningTag.bareTexts, opening, BareTag.closing]
  | fragment => exact ⟨rfl, rfl⟩

theorem addNoParens_parent (tag : BareTag) (ancestors : Ancestors) :
    Ancestors.AddNoParens (tag.parent :: ancestors) := by
  cases tag <;> exact Ancestors.addNoParens_cons rfl ancestors

theorem always_markup (h : host.AddsNothing) {ancestors : Ancestors}
    (hparens : ancestors.AddNoParens) (o : LanguageOptions) (isEmbedded : Bool) (tag : BareTag)
    {nodes : List Node} {P : List Child → Prop}
    (hchildren : (Node.children o (tag.parent :: ancestors) nodes).Always host P) :
    ((tag.markup nodes).document o ancestors isEmbedded).Always host fun doc =>
      ∃ children, P children ∧ doc = (tag.shell o).doc o isEmbedded children := by
  have hsurrounded (doc : Doc) : (Markup.surrounded ancestors [] doc).Always host (· = doc) := by
    refine always_bind ((h.always_comments doc).imp fun commented hcommented => ?_)
    rw [hcommented]
    exact Parens.always_document hparens doc
  cases tag with
  | element name typeArguments closing =>
    rw [markup, Markup.document]
    refine always_bind ((OpeningTag.always_bare h o _ name typeArguments).imp ?_)
    rintro _ rfl
    refine always_bind ((Tag.always_closing h (some closing)).imp ?_)
    rintro _ rfl
    refine always_bind (hchildren.imp fun children hP => (hsurrounded _).imp ?_)
    rintro _ rfl
    exact ⟨children, hP, rfl⟩
  | fragment =>
    rw [markup, Markup.document]
    refine always_bind (always_bind (h.always_dangling.imp ?_))
    rintro _ rfl
    refine always_done (always_bind (always_bind (h.always_dangling.imp ?_)))
    rintro _ rfl
    refine always_done (always_bind (hchildren.imp fun children hP => (hsurrounded _).imp ?_))
    rintro _ rfl
    exact ⟨children, hP, rfl⟩

end BareTag

/-! ## Children that take a line -/

namespace Node

/-- A child, under these ancestors, that is printed **on one line**: an element `<name />`, braces
around nothing, or braces that hug what the host prints on one line. -/
inductive TakesLine (host : Host σ ε) (o : Options) (ancestors : Ancestors) :
    Node → List Char → Prop
  | element (name : String) (typeArguments : Option String) :
      TakesLine host o ancestors (markup (.element (.selfClosed name typeArguments) none [] []))
        (OpeningTag.selfClosedChars o.language name typeArguments)
  | noExpression : TakesLine host o ancestors (container (.empty [])) ['{', '}']
  | expression {e : ForeignExpression} {doc : Doc} {line : List Char}
      (hugged : (Container.filled (.foreign e)).isInline ancestors = true)
      (answer : ∀ s, (host.expression e (.jsxExpressionContainer :: ancestors) s).1 = .ok doc)
      (oneLine : doc.IsOneLine o.layout line) :
      TakesLine host o ancestors (container (.filled (.foreign e))) ('{' :: (line ++ ['}']))

namespace TakesLine

variable {o : Options} {ancestors : Ancestors} {node : Node} {line : List Char}

theorem asText? (h : node.TakesLine host o ancestors line) : node.asText? = none := by
  cases h with
  | element | noExpression => rfl
  | expression hugged => exact asText?_hugged hugged

theorem childKind_ne (h : node.TakesLine host o ancestors line) : node.childKind ≠ .other := by
  cases h <;> nofun

/-- Its document **stands on the line**. -/
theorem always_standsOnLine (hhost : host.AddsNothing) (hparens : ancestors.AddNoParens)
    (h : node.TakesLine host o ancestors line) :
    (node.document o.language ancestors false).Always host (Doc.StandsOnLine o.layout · line) := by
  cases h with
  | element name typeArguments =>
    rw [document, Markup.document]
    refine always_bind ((OpeningTag.always_selfClosed hhost o.language _ name typeArguments).imp ?_)
    rintro _ rfl
    refine always_bind (always_done (always_bind ?_))
    rw [children]
    refine always_done (always_bind ((hhost.always_comments _).imp ?_))
    rintro _ rfl
    refine (Parens.always_document hparens _).imp ?_
    rintro _ rfl
    exact OpeningTag.standsOnLine_selfClosedDoc o name typeArguments
  | noExpression =>
    rw [document, Container.document]
    refine always_bind (always_bind (hhost.always_dangling.imp ?_))
    rintro _ rfl
    have hnothing : Doc.IsOneLine o.layout (.concat []) [] := .lineless rfl
    exact always_done (always_done hnothing.standsOnLine_hugging)
  | expression hugged answer oneLine =>
    rw [document, Container.document, Expression.document]
    refine always_bind ((Host.always_expression answer).imp ?_)
    rintro _ rfl
    refine always_done ?_
    rw [Container.braces, if_pos hugged]
    exact oneLine.standsOnLine_hugging

end TakesLine

/-- A child **that takes a line**, with that line and the text behind it, if there is one. -/
structure Entry (host : Host σ ε) (o : Options) (ancestors : Ancestors) where
  node : Node
  line : List Char
  gap : Option String
  takesLine : node.TakesLine host o ancestors line
  isGap : IsGap gap

namespace Entry

variable {o : Options} {ancestors : Ancestors}

/-- The children, with the texts between them. -/
def nodes (entries : List (Entry host o ancestors)) : List Node :=
  entries.flatMap fun entry => entry.node :: entry.gap.toList.map .text

/-- Their lines, **an empty one** in a wide gap between two of them. -/
def lines (entries : List (Entry host o ancestors)) : List Line :=
  Line.stack (entries.map fun entry => (entry.line, isWideGap entry.gap))

theorem always_gap {gap : Option String} {later : List Node} {P : List Child → Prop}
    (h : (children o.language ancestors later).Always host fun children =>
      P (gap.toList.map .text ++ children)) :
    (children o.language ancestors (gap.toList.map text ++ later)).Always host P := by
  rcases gap with _ | raw
  · exact h
  · rw [Option.toList_some, List.map_singleton, List.singleton_append, children]
    exact always_bind (always_done (always_bind (h.imp fun _ hP => always_done hP)))

/-- Children that take a line each **are blocks**, behind a text or none. -/
theorem always_blocks (hhost : host.AddsNothing) (hparens : ancestors.AddNoParens)
    (gap : Option String) (entries : List (Entry host o ancestors)) :
    (children o.language ancestors (gap.toList.map text ++ nodes entries)).Always host
      fun children => ∃ blocks : List (Block o.layout),
        children = gap.toList.map .text ++ Block.children blocks ∧
          blocks.map (fun block => (block.line, block.gap)) =
            entries.map (fun entry => (entry.line, entry.gap)) := by
  induction entries generalizing gap with
  | nil =>
    refine always_gap ?_
    rw [nodes, List.flatMap_nil, children]
    exact always_done ⟨[], rfl, rfl⟩
  | cons entry entries ih =>
    have hnodes : nodes (entry :: entries) =
        entry.node :: (entry.gap.toList.map text ++ nodes entries) := rfl
    refine always_gap ?_
    rw [hnodes, children, entry.takesLine.asText?]
    refine always_bind (always_map ((entry.takesLine.always_standsOnLine hhost hparens).imp
      fun doc hdoc => always_bind ((ih entry.gap).imp ?_)))
    rintro _ ⟨blocks, rfl, hblocks⟩
    refine always_done
      ⟨⟨entry.node.childKind, doc, entry.line, entry.gap, entry.takesLine.childKind_ne, hdoc,
        entry.isGap⟩ :: blocks, rfl, ?_⟩
    rw [List.map_cons, List.map_cons, hblocks]

end Entry

/-- **Empty lines between children are kept.**  Children that take one line each, two of them at
least, are formatted one a line between their tags, indented one level.  An empty line is left
between two of them exactly where the text between them has two line breaks or more, and none behind
the opening tag or before the closing one. -/
theorem format_blocks (hhost : host.AddsNothing) {position : Position}
    (hparens : position.ancestors.AddNoParens) (hblock : position.isEmbedded = false) (o : Options)
    (hindent : 0 < o.layout.indentWidth) (tag : BareTag) {gap : Option String} (hgap : IsGap gap)
    {entries : List (Entry host o (tag.parent :: position.ancestors))}
    (hseveral : 2 ≤ entries.length) (s : σ) :
    ∃ output,
      ((markup (tag.markup (gap.toList.map text ++ Entry.nodes entries))).format
        host position o s).1 = .ok output ∧
      output.toList = o.layout.lineBreak.chars.intercalate
        ((⟨0, tag.opening⟩ :: (Entry.lines entries ++ [⟨0, tag.closing⟩])).map
          (Line.chars o.layout)) := by
  have hdocument := tag.always_markup hhost hparens o.language position.isEmbedded
    (Entry.always_blocks hhost (tag.addNoParens_parent position.ancestors) gap entries)
  obtain ⟨_, ⟨_, ⟨blocks, rfl, hblocks⟩, rfl⟩, -, hformat⟩ := @exists_format_eq _ _ host position
    o.language (markup (tag.markup (gap.toList.map text ++ Entry.nodes entries))) _ hdocument s
  have hlength : blocks.length = entries.length := by
    rw [← List.length_map, hblocks, List.length_map]
  have hlines : Block.lines blocks = Entry.lines entries := by
    have hline := congrArg (List.map fun entry => (entry.1, isWideGap entry.2)) hblocks
    rw [List.map_map, List.map_map] at hline
    exact congrArg Line.stack hline
  have hne : blocks ≠ [] := List.ne_nil_of_length_pos (by omega)
  obtain ⟨output, houtput, hset⟩ := Shell.exists_typeset_blocks hindent
    (tag.hasLinelessTags_shell o.language) (SpaceStyle.of o.language false).doc hne
  obtain ⟨hopening, hclosing⟩ := tag.ownText_shell o.language
  rw [hopening, hclosing, hlines] at hset
  refine ⟨output, hformat o.layout output ?_, hset⟩
  rw [hblock, Shell.doc_blocks o.language _ hgap (hlength ▸ hseveral), houtput]

/-- Children of a list: the text behind the first one has an empty line, and so has
that behind the last. -/
def listEntries : List (Entry Host.verbatim {} [.jsxElement]) :=
  [⟨_, _, some "\n \n\n", .element "a" none, by
      simp [IsGap, Piece.IsBreak, Text.IsBlankRun, Text.isBlank]⟩,
    ⟨_, _, some "\n", @TakesLine.expression _ _ _ _ _ ⟨.call, "f()", []⟩ _ _ rfl (fun _ => rfl)
      (.lineless rfl), by simp [IsGap, Piece.IsBreak, Text.IsBlankRun, Text.isBlank]⟩,
    ⟨_, _, some "\n\n", .element "b" (some "<T>"), by
      simp [IsGap, Piece.IsBreak, Text.IsBlankRun, Text.isBlank]⟩]

/-- The empty line in front of the closing tag is gone, as is that behind the opening one. -/
theorem format_blocks_list :
    IsGap (some "\n\n") ∧ 2 ≤ listEntries.length ∧
      ((markup (BareTag.markup ((some "\n\n").toList.map text ++ Entry.nodes listEntries)
        (.element "ul" none "ul"))).format Host.verbatim {} {} ()).1 =
          .ok "<ul>\n  <a />\n\n  {f()}\n  <b<T> />\n</ul>" := by
  have hgap : IsGap (some "\n\n") := by simp [IsGap, Piece.IsBreak, Text.IsBlankRun, Text.isBlank]
  have hseveral : 2 ≤ listEntries.length := by decide
  obtain ⟨output, houtput, hset⟩ := @format_blocks _ _ _ Host.addsNothing_verbatim {}
    Ancestors.addNoParens_nil rfl {} (by decide) (.element "ul" none "ul") _ hgap
    listEntries hseveral ()
  exact ⟨hgap, hseveral, houtput.trans (congrArg Except.ok (String.toList_inj.mp (hset.trans rfl)))⟩

end Node

end Reflow
