import Reflow.Proofs.Doc.Fitting
import Reflow.Proofs.Format.Whitespace
import Reflow.Proofs.Markup.Brackets
import Reflow.Proofs.Text.Width

/-!
# Proofs/Format/Attributes — opening tags on one line, or one attribute a line

The attributes of an opening tag are broken together.  A tag of simple attributes is printed on one
line if it is within the width, and otherwise with each attribute on a line of its own; a single
string stays with its tag at every width (`Node.format_openingTag`).
-/

namespace Reflow

open Dialogue

variable {σ ε : Type} {host : Host σ ε}

/-! ## Attributes -/

/-- An attribute that is a name alone, or has a **string on one line**. -/
structure SimpleAttribute where
  name : String
  value : Option String
  onOneLine : ∀ raw ∈ value, '\n' ∉ raw.toList

namespace SimpleAttribute

variable (o : LanguageOptions) (a : SimpleAttribute)

/-- The attribute in a tree. -/
def item : Attribute :=
  match a.value with
  | none => .bare ⟨a.name, []⟩ []
  | some raw => .valued ⟨a.name, []⟩ (.string raw) []

/-- The texts that it is printed as, its string with the quotes normalized. -/
def texts : List String :=
  a.name :: a.value.elim [] fun raw => ["=", AttributeString.normalize o.jsxQuotes raw]

/-- All of them **behind a space**. -/
def spaced : String := " " ++ String.join (a.texts o)

/-- Its document. -/
def doc : Doc := .concat ((a.texts o).map .text)

theorem always_doc (h : host.AddsNothing) (ancestors : Ancestors) :
    (a.item.document o ancestors).Always host (· = a.doc o) := by
  rcases a with ⟨name, _ | raw, hline⟩
  · rw [item, Attribute.document]
    refine always_bind ((h.always_comments _).imp ?_)
    rintro _ rfl
    exact h.always_comments _
  · rw [item, Attribute.document]
    refine always_bind ((h.always_comments _).imp ?_)
    rintro _ rfl
    refine always_bind ?_
    rw [AttributeValue.document]
    exact always_done (h.always_comments _)

theorem always_docs (h : host.AddsNothing) (ancestors : Ancestors)
    (attributes : List SimpleAttribute) :
    (Attribute.documents o ancestors (attributes.map item)).Always host
      (· = attributes.map (doc o)) := by
  induction attributes with
  | nil => exact always_done rfl
  | cons a attributes ih =>
    rw [List.map_cons, Attribute.documents]
    refine always_bind ((a.always_doc o h ancestors).imp ?_)
    rintro _ rfl
    refine always_bind (ih.imp ?_)
    rintro _ rfl
    exact always_done rfl

theorem isMultilineString_item : a.item.isMultilineString = false := by
  rcases a with ⟨name, _ | raw, hline⟩
  · rfl
  · rw [item, Attribute.isMultilineString, List.contains_eq_mem, decide_eq_false_iff_not]
    exact hline raw rfl

theorem isPlainString_item : a.item.isPlainString = a.value.isSome := by
  rcases a with ⟨name, _ | raw, hline⟩
  · rfl
  · rw [item, Attribute.isPlainString, List.contains_eq_mem, decide_eq_false (hline raw rfl)]
    rfl

theorem comments_item : a.item.comments = [] := by
  rcases a with ⟨name, _ | raw, hline⟩ <;> rfl

theorem isLineless_doc : (a.doc o).isLineless = true := by
  rcases a with ⟨name, _ | raw, hline⟩ <;> rfl

theorem mayStayFlat_doc : (a.doc o).MayStayFlat :=
  .of_forall_mem (List.forall_mem_map.mpr fun _ _ => ⟨rfl, rfl, rfl⟩)

theorem flatTexts_doc : (a.doc o).flatTexts = a.texts o := by
  rcases a with ⟨name, _ | raw, hline⟩ <;> rfl

theorem ownText_doc : (a.doc o).ownText = (String.join (a.texts o)).toList := by
  rw [← Doc.flatMap_flatTexts_of_isLineless _ (a.isLineless_doc o), flatTexts_doc,
    String.toList_join]

/-- An attribute takes **the columns of its texts** and the space before them. -/
theorem width_spaced : Text.width (a.spaced o) = 1 + Text.widths (a.texts o) := by
  have hspace : Text.EndsApart " " := by decide
  rw [spaced, Text.width_append_of_endsApart hspace]
  refine congrArg (1 + ·) ?_
  rcases a with ⟨name, _ | raw, hline⟩
  · simp [texts, Text.widths, String.join_cons]
  · have hstarts : Text.StartsApart "=" := by decide
    have hends : Text.EndsApart "=" := by decide
    set value := AttributeString.normalize o.jsxQuotes raw with hvalue
    have hassigned := hstarts.append_of_ne_nil (by decide) value
    simp only [texts, Option.elim_some, String.join_cons, String.join_nil, String.append_empty]
    rw [← hvalue, Text.width_append_of_startsApart name hassigned,
      Text.width_append_of_endsApart hends]
    simp only [Text.widths, List.map_cons, List.map_nil, List.sum_cons, List.sum_nil, Nat.add_zero]

theorem startsApart_spaced : Text.StartsApart (a.spaced o) :=
  Text.StartsApart.append_of_ne_nil (by decide) (by decide) _

theorem forall_docs (attributes : List SimpleAttribute) :
    ∀ printed ∈ attributes.map (doc o), printed.isLineless = true ∧ printed.MayStayFlat :=
  List.forall_mem_map.mpr fun a _ => ⟨a.isLineless_doc o, a.mayStayFlat_doc o⟩

/-- The texts of attributes on one line. -/
theorem flatTexts_docs (attributes : List SimpleAttribute) :
    ((attributes.map (doc o)).flatMap fun doc => " " :: doc.flatTexts) =
      attributes.flatMap fun a => " " :: a.texts o := by
  rw [List.flatMap_map]
  exact List.flatMap_congr fun a _ => congrArg (" " :: ·) (a.flatTexts_doc o)

theorem join_texts (attributes : List SimpleAttribute) :
    String.join (attributes.flatMap fun a => " " :: a.texts o) =
      String.join (attributes.map (spaced o)) := by
  induction attributes with
  | nil => rfl
  | cons a attributes ih =>
    rw [List.flatMap_cons, String.join_append, ih, String.join_cons, List.map_cons,
      String.join_cons, spaced]

theorem widths_texts (attributes : List SimpleAttribute) :
    Text.widths (attributes.flatMap fun a => " " :: a.texts o) =
      Text.widths (attributes.map (spaced o)) := by
  induction attributes with
  | nil => rfl
  | cons a attributes ih =>
    rw [List.flatMap_cons, Text.widths_append, ih, List.map_cons, Text.widths_cons,
      Text.widths_cons, a.width_spaced]
    rfl

end SimpleAttribute

/-! ## Documents behind lines -/

namespace Doc

/-- Documents with a line before each. -/
def behindLines (docs : List Doc) : List Doc := docs.flatMap fun doc => [.line .orSpace, doc]

theorem allFlatTexts_behindLines (docs : List Doc) :
    allFlatTexts (behindLines docs) = docs.flatMap fun doc => " " :: doc.flatTexts := by
  induction docs with
  | nil => rfl
  | cons doc docs ih =>
    rw [List.flatMap_cons, ← ih]
    rfl

/-- In a broken group each document behind a line stands **on a line of its own**. -/
theorem exists_resolveAll_behindLines (flush : Flush) (indentWidth : Nat) {docs : List Doc}
    (h : ∀ doc ∈ docs, doc.isLineless = true) :
    ∃ layout, resolveAll flush indentWidth .undecided (behindLines docs) [] = ⟨layout, []⟩ ∧
      ∀ (o : LayoutOptions) (indent : Nat) (rest : Layout.Rest) (column : Nat),
        (layout.set o.printWidth .broken indent rest column).flatMap (Piece.chars o) =
          docs.flatMap fun doc => (Piece.newline indent).chars o ++ doc.ownText := by
  induction docs with
  | nil => exact ⟨.nil, rfl, fun _ _ _ _ => rfl⟩
  | cons doc docs ih =>
    obtain ⟨hdoc, hdocs⟩ := List.forall_mem_cons.mp h
    obtain ⟨later, hlater, hlines⟩ := ih hdocs
    obtain ⟨own, hown, htext⟩ := exists_resolve_of_isLineless hdoc flush indentWidth .undecided
      (nextIsBreak .undecided (behindLines docs))
    have hresolve : resolveAll flush indentWidth .undecided (behindLines (doc :: docs)) [] =
        ⟨.seq (.softBreak 1) (.seq own later), []⟩ := by
      change resolveAll flush indentWidth .undecided
        (.line .orSpace :: doc :: behindLines docs) [] = _
      rw [resolveAll, resolve, resolveAll]
      simp only [resolveLine, hown, hlater]
    refine ⟨_, hresolve, fun o indent rest column => ?_⟩
    rw [Layout.set, Layout.set, List.flatMap_append, List.flatMap_singleton, Layout.set,
      List.flatMap_append, htext, hlines, List.flatMap_cons, List.append_assoc]

end Doc

/-! ## Tags -/

namespace OpeningTag

/-- Between the angle brackets of a tag whose attributes are spread. -/
def spreadContents (o : LanguageOptions) (tag : OpeningTag) (name : String)
    (docs : List Doc) : Doc :=
  .concat ([.text "<", .text name, .nil, .indent (.concat (Doc.behindLines docs))] ++
    (if tag.bracketSameLine o then [] else [Doc.line .orNil]) ++ [.text tag.bracket])

variable {tag : OpeningTag} {docs : List Doc}

theorem spread_eq_grouped (o : LanguageOptions)
    (hstrings : tag.attributes.any Attribute.isMultilineString = false) (name : String)
    (docs : List Doc) :
    tag.spread o (.text name) .nil docs = (tag.spreadContents o name docs).grouped := by
  rw [spread, hstrings]
  rfl

theorem flatTexts_spreadContents (o : LanguageOptions) (tag : OpeningTag) (name : String)
    (docs : List Doc) :
    (tag.spreadContents o name docs).flatTexts =
      "<" :: name :: ((docs.flatMap fun doc => " " :: doc.flatTexts) ++ [tag.bracket]) := by
  rw [← Doc.allFlatTexts_behindLines, spreadContents]
  cases tag.bracketSameLine o <;> rfl

theorem mayStayFlat_spreadContents (o : LanguageOptions) (tag : OpeningTag) (name : String)
    (h : ∀ doc ∈ docs, doc.MayStayFlat) : (tag.spreadContents o name docs).MayStayFlat := by
  have hlines : (Doc.concat (Doc.behindLines docs)).MayStayFlat :=
    .of_forall_mem (List.forall_mem_flatMap.mpr fun doc hdoc =>
      List.forall_mem_cons.mpr ⟨⟨rfl, rfl, rfl⟩, List.forall_mem_singleton.mpr (h doc hdoc)⟩)
  have hindented : (Doc.indent (.concat (Doc.behindLines docs))).MayStayFlat :=
    ⟨hlines.noBreak, hlines.noneHeld, hlines.alternatives⟩
  refine .of_forall_mem fun doc hdoc => ?_
  simp only [List.cons_append, List.nil_append, List.mem_cons, List.mem_append, List.not_mem_nil,
    or_false] at hdoc
  obtain rfl | rfl | rfl | rfl | hdoc | rfl := hdoc
  case inr.inr.inr.inl => exact hindented
  case inr.inr.inr.inr.inl =>
    split_ifs at hdoc
    · cases hdoc
    · obtain rfl := List.mem_singleton.mp hdoc
      exact ⟨rfl, rfl, rfl⟩
  all_goals exact ⟨rfl, rfl, rfl⟩

/-- On several lines the attributes are **indented one level** each, and the bracket is not. -/
theorem typeset_spread_broken (o : Options) (hindent : 0 < o.layout.indentWidth)
    (hstrings : tag.attributes.any Attribute.isMultilineString = false) (name : String)
    (hdocs : ∀ doc ∈ docs, doc.isLineless = true ∧ doc.MayStayFlat)
    (hwide : o.layout.printWidth <
      Text.widths (tag.spreadContents o.language name docs).flatTexts) :
    (tag.spread o.language (.text name) .nil docs).typeset o.layout =
      .ok (String.ofList ('<' :: (name.toList ++
        ((docs.flatMap fun doc =>
            o.layout.lineBreak.chars ++ Piece.levels o.layout 1 ++ doc.ownText) ++
          ((if tag.bracketSameLine o.language then [] else o.layout.lineBreak.chars) ++
            tag.bracket.toList))))) := by
  have hstays : (tag.spreadContents o.language name docs).MayStayFlat :=
    mayStayFlat_spreadContents o.language tag name fun doc hdoc => (hdocs doc hdoc).2
  set flush := Doc.flushAt o.layout.indentWidth
    (tag.spreadContents o.language name docs).suffixDepth with hflush
  obtain ⟨lines, hlines, hset⟩ := Doc.exists_resolveAll_behindLines flush o.layout.indentWidth
    fun doc hdoc => (hdocs doc hdoc).1
  have hresolve : (Doc.resolve flush o.layout.indentWidth .undecided false
      (tag.spreadContents o.language name docs) []).layout =
        .seq (.text "<") (.seq (.text name) (.seq .nil (.seq (.nest o.layout.indentWidth lines)
          (if tag.bracketSameLine o.language then .seq (.text tag.bracket) .nil
            else .seq (.softBreak 0) (.seq (.text tag.bracket) .nil))))) := by
    rw [spreadContents]
    cases tag.bracketSameLine o.language <;>
      simp [Doc.resolve, Doc.resolveAll, Doc.resolveLine, Doc.nil, hlines]
  have hlevel : Piece.indentation o.layout o.layout.indentWidth = Piece.levels o.layout 1 := by
    rw [← Piece.indentation_mul hindent 1, Nat.one_mul]
  rw [spread_eq_grouped o.language hstrings, hstays.typeset_grouped_broken o.layout hindent hwide,
    ← hflush, hresolve, Piece.write]
  congr 2
  cases tag.bracketSameLine o.language <;>
    simp [Layout.set, hset, Piece.chars, hlevel, List.flatMap_append]

/-! ## Tags of simple attributes -/

/-- A tag of **a name and simple attributes**. -/
def simple (name : String) (attributes : List SimpleAttribute) (selfClosing : Bool) : OpeningTag :=
  ⟨⟨name, []⟩, none, attributes.map SimpleAttribute.item, selfClosing⟩

variable {name : String} {attributes : List SimpleAttribute} {selfClosing : Bool}

theorem always_simple (h : host.AddsNothing) (o : LanguageOptions) (ancestors : Ancestors)
    (name : String) (attributes : List SimpleAttribute) (selfClosing : Bool) :
    ((simple name attributes selfClosing).document o ancestors).Always host
      (· = (simple name attributes selfClosing).doc o (.text name) .nil
        (attributes.map (SimpleAttribute.doc o))) := by
  rw [simple, document]
  refine always_bind ((h.always_comments _).imp ?_)
  rintro _ rfl
  refine always_bind (always_done ?_)
  refine always_bind ((SimpleAttribute.always_docs o h ancestors attributes).imp ?_)
  rintro _ rfl
  exact always_done rfl

/-- Without strings over several lines no attribute makes the tag break. -/
theorem any_isMultilineString_simple :
    (simple name attributes selfClosing).attributes.any Attribute.isMultilineString = false := by
  rw [simple, List.any_map, List.any_eq_false]
  exact fun a _ => by simp [SimpleAttribute.isMultilineString_item]

/-- Without comments the bracket follows the last attribute **if it is asked to**. -/
theorem bracketSameLine_simple (hne : attributes ≠ []) (o : LanguageOptions) :
    (simple name attributes selfClosing).bracketSameLine o = o.closingBracketSameLine := by
  have hlast : ((attributes.map SimpleAttribute.item).getLast?.any
      fun last => last.comments.any Comment.isTrailing) = false := by
    rw [Option.any_eq_false]
    intro last hlast
    obtain ⟨a, -, rfl⟩ := List.mem_map.mp (List.mem_of_getLast? hlast)
    simp [SimpleAttribute.comments_item]
  have hsome : (attributes.map SimpleAttribute.item).isEmpty = false := by simpa using hne
  simp only [simple, bracketSameLine, nameHasComments, hsome, hlast]
  simp

/-- Unless they are a single string, the attributes **are spread**. -/
theorem doc_simple (hne : attributes ≠ []) (hlone : ∀ a, attributes = [a] → a.value = none)
    (o : LanguageOptions) :
    (simple name attributes selfClosing).doc o (.text name) .nil
        (attributes.map (SimpleAttribute.doc o)) =
      (simple name attributes selfClosing).spread o (.text name) .nil
        (attributes.map (SimpleAttribute.doc o)) := by
  rcases attributes with _ | ⟨a, _ | ⟨next, others⟩⟩
  · exact absurd rfl hne
  · have hnone : a.item.isPlainString = false := by
      rw [a.isPlainString_item, hlone a rfl]
      rfl
    simp [simple, doc, hnone]
  · rfl

/-- A tag on one line **up to its bracket**. -/
def line (o : LanguageOptions) (name : String) (attributes : List SimpleAttribute) : String :=
  "<" ++ name ++ String.join (attributes.map (SimpleAttribute.spaced o))

/-- A single string is printed **on one line** with its tag. -/
theorem doc_simple_loneString (o : LanguageOptions) (name : String) (a : SimpleAttribute)
    (h : a.value.isSome = true) (selfClosing : Bool) :
    ((simple name [a] selfClosing).doc o (.text name) .nil [a.doc o]).isLineless = true ∧
      ((simple name [a] selfClosing).doc o (.text name) .nil [a.doc o]).ownText =
        (line o name [a] ++ (simple name [a] selfClosing).endOnLine o).toList := by
  have hdoc : (simple name [a] selfClosing).doc o (.text name) .nil [a.doc o] =
      .grouped (.concat [.text "<", .text name, .nil, .text " ", a.doc o,
        .text ((simple name [a] selfClosing).endOnLine o)]) := by
    have hstring : a.item.isPlainString = true := by rw [a.isPlainString_item, h]
    simp [simple, doc, hstring, nameHasComments]
  rw [hdoc]
  constructor
  · simp [Doc.grouped, Doc.isLineless, Doc.allLineless, Doc.nil, a.isLineless_doc]
  · simp [Doc.grouped, Doc.ownText, Doc.ownTexts, Doc.nil, a.ownText_doc, line,
      SimpleAttribute.spaced, String.join_cons]

/-- The texts of the line, **joined**. -/
theorem join_flatTexts_spreadContents (o : LanguageOptions) (name : String)
    (attributes : List SimpleAttribute) (tag : OpeningTag) :
    String.join (tag.spreadContents o name (attributes.map (SimpleAttribute.doc o))).flatTexts =
      line o name attributes ++ tag.bracket := by
  rw [flatTexts_spreadContents, SimpleAttribute.flatTexts_docs, String.join_cons, String.join_cons,
    String.join_append, SimpleAttribute.join_texts, String.join_cons, String.join_nil,
    String.append_empty, line]
  simp only [String.append_assoc]

/-- The line is **as wide as its texts**: each of them is set apart by a delimiter. -/
theorem widths_flatTexts_spreadContents (o : LanguageOptions) (name : String)
    (attributes : List SimpleAttribute) (tag : OpeningTag) :
    Text.widths (tag.spreadContents o name (attributes.map (SimpleAttribute.doc o))).flatTexts =
      Text.width (line o name attributes ++ tag.bracket) := by
  have hstarts : ∀ s ∈ attributes.map (SimpleAttribute.spaced o) ++ [tag.bracket],
      Text.StartsApart s := by
    refine List.forall_mem_append.mpr ⟨List.forall_mem_map.mpr fun a _ => a.startsApart_spaced o,
      List.forall_mem_singleton.mpr ?_⟩
    rw [bracket]
    split_ifs <;> decide
  have hends : Text.EndsApart "<" := by decide
  obtain ⟨hrest, hsum⟩ := Text.startsApart_join hstarts
  have hline : line o name attributes ++ tag.bracket = "<" ++ (name ++
      String.join (attributes.map (SimpleAttribute.spaced o) ++ [tag.bracket])) := by
    rw [line, String.join_append, String.join_cons, String.join_nil, String.append_empty]
    simp only [String.append_assoc]
  rw [hline, Text.width_append_of_endsApart hends,
    Text.width_append_of_startsApart name hrest, hsum, flatTexts_spreadContents,
    SimpleAttribute.flatTexts_docs, Text.widths_cons, Text.widths_cons, Text.widths_append,
    SimpleAttribute.widths_texts, ← Text.widths_append]
  rfl

/-- An opening tag **on one line, or one attribute a line**.  A single string stays on
the line of the tag. -/
structure SetOut (o : Options) (name : String) (attributes : List SimpleAttribute)
    (selfClosing : Bool) (output : String) : Prop where
  loneString {a : SimpleAttribute} (hlone : attributes = [a]) (hstring : a.value.isSome = true) :
    output = line o.language name attributes ++
      (simple name attributes selfClosing).endOnLine o.language
  onOneLine (hlone : ∀ a, attributes = [a] → a.value = none)
    (hroom : Text.width (line o.language name attributes ++
      (simple name attributes selfClosing).bracket) ≤ o.layout.printWidth) :
    output = line o.language name attributes ++ (simple name attributes selfClosing).bracket
  onLines (hlone : ∀ a, attributes = [a] → a.value = none)
    (hwide : o.layout.printWidth < Text.width (line o.language name attributes ++
      (simple name attributes selfClosing).bracket)) :
    output.toList = '<' :: (name.toList ++
      ((attributes.flatMap fun a =>
          o.layout.lineBreak.chars ++ Piece.levels o.layout 1 ++
            (String.join (a.texts o.language)).toList) ++
        ((if o.language.closingBracketSameLine then [] else o.layout.lineBreak.chars) ++
          (simple name attributes selfClosing).bracket.toList)))

end OpeningTag

namespace Node

open OpeningTag (simple line)

/-- **Attributes stand on one line or on one line each.**  An opening tag of simple attributes is
printed on one line if that is within the width.  Otherwise each attribute is indented on a line of
its own and the bracket stands on the last line alone, or behind the last attribute where the
options ask for it.  A single string is not taken from its tag, however narrow the width. -/
theorem format_openingTag (hhost : host.AddsNothing) (position : Position) (o : Options)
    (hindent : 0 < o.layout.indentWidth) (name : String) {attributes : List SimpleAttribute}
    (hne : attributes ≠ []) (selfClosing : Bool) (s : σ) :
    ∃ output, ((openingTag (simple name attributes selfClosing)).format host position o s).1 =
        .ok output ∧ OpeningTag.SetOut o name attributes selfClosing output := by
  have hdocument :=
    OpeningTag.always_simple hhost o.language position.ancestors name attributes selfClosing
  obtain ⟨_, rfl, -, hformat⟩ := @exists_format_eq _ _ host position o.language
    (openingTag (simple name attributes selfClosing)) _ hdocument s
  by_cases hlone : ∀ a, attributes = [a] → a.value = none
  · rw [OpeningTag.doc_simple hne hlone] at hformat
    have hdocs := SimpleAttribute.forall_docs o.language attributes
    have hstays := (simple name attributes selfClosing).mayStayFlat_spreadContents o.language name
      fun doc hdoc => (hdocs doc hdoc).2
    have hwidth := OpeningTag.widths_flatTexts_spreadContents o.language name attributes
      (simple name attributes selfClosing)
    by_cases hroom : Text.width (line o.language name attributes ++
        (simple name attributes selfClosing).bracket) ≤ o.layout.printWidth
    · have hset := hstays.typeset_grouped_of_room o.layout hindent (hwidth.le.trans hroom)
      rw [OpeningTag.join_flatTexts_spreadContents, ← OpeningTag.spread_eq_grouped o.language
        OpeningTag.any_isMultilineString_simple] at hset
      refine ⟨_, hformat o.layout _ hset, fun h hsome => ?_, fun _ _ => rfl, fun _ hwide => ?_⟩
      · rw [hlone _ h] at hsome
        cases hsome
      · omega
    · have hset :=
        OpeningTag.typeset_spread_broken o hindent OpeningTag.any_isMultilineString_simple name
          hdocs (hwidth.symm ▸ Nat.lt_of_not_le hroom)
      refine ⟨_, hformat o.layout _ hset, fun h hsome => ?_, fun _ h => absurd h hroom,
        fun _ _ => ?_⟩
      · rw [hlone _ h] at hsome
        cases hsome
      · rw [String.toList_ofList, OpeningTag.bracketSameLine_simple hne, List.flatMap_map]
        simp only [SimpleAttribute.ownText_doc]
  · push Not at hlone
    obtain ⟨a, rfl, hvalue⟩ := hlone
    have hsome : a.value.isSome = true := Option.isSome_iff_ne_none.mpr hvalue
    obtain ⟨hlineless, htext⟩ :=
      OpeningTag.doc_simple_loneString o.language name a hsome selfClosing
    have hset := Doc.typeset_of_isLineless o.layout hindent hlineless
    rw [htext, String.ofList_toList] at hset
    exact ⟨_, hformat o.layout _ hset, fun _ _ => rfl, fun h => absurd (h a rfl) hvalue,
      fun h => absurd (h a rfl) hvalue⟩

/-- Two attributes of an input, the string of one in single quotes. -/
def inputAttributes : List SimpleAttribute :=
  [⟨"disabled", none, nofun⟩, ⟨"type", some "'text'", by decide⟩]

/-- On one line the tag takes twenty-nine columns, and with one column less it is broken. -/
theorem format_openingTag_input :
    inputAttributes ≠ [] ∧ 0 < ({ printWidth := 29 } : LayoutOptions).indentWidth ∧
      0 < ({ printWidth := 28 } : LayoutOptions).indentWidth ∧
      ((openingTag (simple "input" inputAttributes true)).format Host.verbatim {}
          { layout.printWidth := 29 } ()).1 = .ok "<input disabled type=\"text\"/>" ∧
      ((openingTag (simple "input" inputAttributes true)).format Host.verbatim {}
          { layout.printWidth := 28 } ()).1 = .ok "<input\n  disabled\n  type=\"text\"\n/>" := by
  have hne : inputAttributes ≠ [] := List.cons_ne_nil _ _
  have hlone : ∀ a, inputAttributes = [a] → a.value = none := by simp [inputAttributes]
  obtain ⟨output, houtput, hset⟩ := format_openingTag Host.addsNothing_verbatim {}
    { layout.printWidth := 29 } (by decide) "input" hne true ()
  obtain ⟨narrow, hnarrow, hset'⟩ := format_openingTag Host.addsNothing_verbatim {}
    { layout.printWidth := 28 } (by decide) "input" hne true ()
  refine ⟨hne, by decide, by decide, ?_, ?_⟩
  · rw [houtput, hset.onOneLine hlone (by decide)]
    rfl
  · rw [hnarrow, ← String.ofList_toList (s := narrow), hset'.onLines hlone (by decide)]
    rfl

end Node

end Reflow
