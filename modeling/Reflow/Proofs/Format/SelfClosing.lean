import Reflow.Proofs.Doc.OneLine
import Reflow.Proofs.Format.Attributes
import Reflow.Proofs.Format.Parens
import Reflow.Proofs.Markup.Uncommented

/-!
# Proofs/Format/SelfClosing — the end of a self-closing tag

A self-closing tag without attributes, or with a single string, ends with ` />`, and with `/>` where
the options ask for the bracket on the line.  Any other attributes may be broken from their tag, and
then the bracket has a line of its own, or none where the options ask for that.  Such a line is
nothing on one line, so there the tag ends with `/>` in either case (`Node.format_selfClosing`),
without the space (`Node.format_selfClosing_lacksSpace`).
-/

namespace Reflow

open Dialogue

variable {σ ε : Type} {host : Host σ ε} {o : LanguageOptions} {ancestors : Ancestors}

/-! ## Attributes -/

namespace Attribute

/-- An attribute that is **printed as this document**, in some state of the host. -/
def IsPrinted (host : Host σ ε) (o : LanguageOptions) (ancestors : Ancestors) (item : Attribute)
    (doc : Doc) : Prop :=
  ∃ s, ((item.document o ancestors).run host s).value = doc

theorem forall₂_isPrinted (items : List Attribute) (s : σ) :
    List.Forall₂ (IsPrinted host o ancestors) items
      ((Attribute.documents o ancestors items).run host s).value := by
  induction items generalizing s with
  | nil =>
    rw [documents]
    exact .nil
  | cons first others ih =>
    simp only [documents, run_bind, pure_eq, run_done]
    exact .cons ⟨s, rfl⟩ (ih _)

/-- Without comments a string on one line **has no line**. -/
theorem isLineless_of_isPlainString (hhost : host.AddsNothing) {item : Attribute}
    (hnone : item.allComments = []) (hplain : item.isPlainString = true) {doc : Doc}
    (h : item.IsPrinted host o ancestors doc) : doc.isLineless = true := by
  obtain ⟨s, rfl⟩ := h
  match item, hplain with
  | .valued name (.string raw) [], _ =>
    obtain ⟨hname, -⟩ := List.append_eq_nil_iff.mp (List.append_eq_nil_iff.mp hnone).1
    have hdocument : ((valued name (.string raw) []).document o ancestors).Always host
        fun doc => doc.isLineless = true := by
      rw [document, Verbatim.document, hname]
      refine always_bind ((hhost.always_comments _).imp ?_)
      rintro _ rfl
      refine always_bind ?_
      rw [AttributeValue.document]
      refine always_done ((hhost.always_comments _).imp ?_)
      rintro _ rfl
      rfl
    exact (hdocument s).2

end Attribute

/-! ## Tags -/

namespace OpeningTag

variable {tag : OpeningTag} {docs : List Doc}

/-- The document of the type arguments, as they are written. -/
def argumentsDoc (tag : OpeningTag) : Doc := tag.typeArguments.elim .nil fun arguments =>
    .text arguments.raw

/-- Between the angle brackets of a tag whose attributes are spread, these included. -/
def inside (o : LanguageOptions) (tag : OpeningTag) (docs : List Doc) : Doc :=
  .concat ([.text "<", .text tag.name.raw, tag.argumentsDoc,
    .indent (.concat (Doc.behindLines docs))] ++
    (if tag.bracketSameLine o then [] else [.line .orNil]) ++ [.text tag.bracket])

/-- **The end of a tag** that is on one line. -/
def lineEnd (o : LanguageOptions) (tag : OpeningTag) : String :=
  if tag.attributes.isEmpty || tag.keepsLone then tag.endOnLine o else tag.bracket

theorem spread_eq_group (o : LanguageOptions) (tag : OpeningTag) (docs : List Doc) :
    tag.spread o (.text tag.name.raw) tag.argumentsDoc docs =
      .group (tag.attributes.any Attribute.isMultilineString) (tag.inside o docs) := rfl

/-- The first attribute is **behind a line**. -/
theorem hasLine_inside (o : LanguageOptions) (tag : OpeningTag) (hne : docs ≠ []) :
    (tag.inside o docs).HasLine := by
  obtain ⟨doc, docs, rfl⟩ := List.exists_cons_of_ne_nil hne
  have hlines : (Doc.concat (Doc.behindLines (doc :: docs))).HasLine :=
    (Doc.hasLine_line .orSpace).concat (by simp [Doc.behindLines])
  exact hlines.indent.concat (by simp)

theorem flatTexts_inside (o : LanguageOptions) (tag : OpeningTag) (docs : List Doc) :
    (tag.inside o docs).flatTexts = "<" :: tag.name.raw :: (tag.argumentsDoc.flatTexts ++
      ((docs.flatMap fun doc => " " :: doc.flatTexts) ++ [tag.bracket])) := by
  rw [← Doc.allFlatTexts_behindLines, inside]
  cases tag.bracketSameLine o <;> rfl

/-- The **layouts of a self-closing tag** without comments: two of them have no line. -/
theorem doc_cases (o : LanguageOptions) (hclosing : tag.selfClosing = true)
    (hname : tag.nameHasComments = false) (hlength : docs.length = tag.attributes.length) :
    (tag.attributes = [] ∧ docs = [] ∧ tag.doc o (.text tag.name.raw) tag.argumentsDoc docs =
      .concat [.text "<", .text tag.name.raw, tag.argumentsDoc, .text (tag.endOnLine o)]) ∨
    (∃ lone only, tag.attributes = [lone] ∧ docs = [only] ∧ lone.isPlainString = true ∧
      tag.keepsLone = true ∧ tag.doc o (.text tag.name.raw) tag.argumentsDoc docs =
        .grouped (.concat [.text "<", .text tag.name.raw, tag.argumentsDoc, .text " ", only,
          .text (tag.endOnLine o)])) ∨
    (tag.attributes ≠ [] ∧ docs ≠ [] ∧ tag.keepsLone = false ∧
      tag.doc o (.text tag.name.raw) tag.argumentsDoc docs =
        .group (tag.attributes.any Attribute.isMultilineString) (tag.inside o docs)) := by
  obtain ⟨name, typeArguments, attributes, selfClosing⟩ := tag
  obtain rfl : selfClosing = true := hclosing
  match attributes, docs, hlength with
  | [], [], _ => exact .inl ⟨rfl, rfl, by simp [doc, hname]⟩
  | [lone], [only], _ =>
    cases hkeeps : lone.isPlainString && !nameHasComments ⟨name, typeArguments, [lone], true⟩ with
    | true =>
      have hplain : lone.isPlainString = true := (Bool.and_eq_true_iff.mp hkeeps).1
      exact .inr (.inl ⟨lone, only, rfl, rfl, hplain, hkeeps, if_pos hkeeps⟩)
    | false =>
      exact .inr (.inr ⟨List.cons_ne_nil _ _, List.cons_ne_nil _ _, hkeeps,
        (if_neg (Bool.eq_false_iff.mp hkeeps)).trans (spread_eq_group o _ _)⟩)
  | _ :: _ :: _, _ :: _ :: _, _ =>
    exact .inr (.inr ⟨List.cons_ne_nil _ _, List.cons_ne_nil _ _, rfl, spread_eq_group o _ _⟩)

theorem flatTexts_doc (o : LanguageOptions) (hclosing : tag.selfClosing = true)
    (hname : tag.nameHasComments = false) (hlength : docs.length = tag.attributes.length) :
    (tag.doc o (.text tag.name.raw) tag.argumentsDoc docs).flatTexts =
      "<" :: tag.name.raw :: (tag.argumentsDoc.flatTexts ++
        ((docs.flatMap fun doc => " " :: doc.flatTexts) ++ [tag.lineEnd o])) := by
  obtain ⟨hnil, rfl, hdoc⟩ | ⟨lone, only, hlone, rfl, -, hkeeps, hdoc⟩ | ⟨hne, -, hkeeps, hdoc⟩ :=
    doc_cases o hclosing hname hlength
  · rw [hdoc, lineEnd, hnil]
    rfl
  · rw [hdoc, lineEnd, hkeeps, Bool.or_true, if_pos rfl]
    simp [Doc.grouped, Doc.flatTexts, Doc.allFlatTexts]
  · have hempty : tag.attributes.isEmpty = false := by simpa using hne
    rw [hdoc, Doc.flatTexts, flatTexts_inside, lineEnd, hkeeps, hempty]
    rfl

/-- A tag **up to its end** on one line, with these texts for its attributes. -/
def upToEnd (tag : OpeningTag) (texts : List String) : String :=
  "<" ++ tag.name.raw ++ tag.typeArguments.elim "" Verbatim.raw ++
    String.join (texts.map (" " ++ ·))

theorem join_flatTexts_behind (docs : List Doc) :
    String.join (docs.flatMap fun doc => " " :: doc.flatTexts) =
      String.join ((docs.map fun doc => String.join doc.flatTexts).map (" " ++ ·)) := by
  induction docs with
  | nil => rfl
  | cons doc docs ih =>
    rw [List.flatMap_cons, String.join_append, ih, String.join_cons, List.map_cons, List.map_cons,
      String.join_cons]

theorem join_flatTexts_doc (o : LanguageOptions) (hclosing : tag.selfClosing = true)
    (hname : tag.nameHasComments = false) (hlength : docs.length = tag.attributes.length) :
    String.join (tag.doc o (.text tag.name.raw) tag.argumentsDoc docs).flatTexts =
      tag.upToEnd (docs.map fun doc => String.join doc.flatTexts) ++ tag.lineEnd o := by
  have harguments : String.join tag.argumentsDoc.flatTexts =
      tag.typeArguments.elim "" Verbatim.raw := by
    rw [argumentsDoc]
    cases tag.typeArguments with
    | none => rfl
    | some arguments => simp [Doc.flatTexts, String.join_cons]
  rw [flatTexts_doc o hclosing hname hlength, String.join_cons, String.join_cons,
    String.join_append, String.join_append, harguments, join_flatTexts_behind, String.join_cons,
    String.join_nil, String.append_empty, upToEnd]
  simp only [String.append_assoc]

/-! ## Without comments -/

theorem nameHasComments_of_allComments (h : tag.allComments = []) :
    tag.nameHasComments = false := by
  obtain ⟨name, typeArguments, attributes, selfClosing⟩ := tag
  rw [allComments, List.append_eq_nil_iff, List.append_eq_nil_iff] at h
  obtain ⟨⟨hname, harguments⟩, -⟩ := h
  rw [nameHasComments, hname]
  cases typeArguments with
  | none => rfl
  | some arguments =>
    have hnone : arguments.comments = [] := harguments
    simp [hnone]

/-- The document of a tag without comments is put together from **its texts and the documents of its
attributes**. -/
theorem exists_value_document (hhost : host.AddsNothing) (h : tag.allComments = []) (s : σ) :
    ∃ docs, List.Forall₂ (Attribute.IsPrinted host o ancestors) tag.attributes docs ∧
      ((tag.document o ancestors).run host s).value =
        tag.doc o (.text tag.name.raw) tag.argumentsDoc docs := by
  obtain ⟨name, typeArguments, attributes, selfClosing⟩ := tag
  rw [allComments, List.append_eq_nil_iff, List.append_eq_nil_iff] at h
  obtain ⟨⟨hname, harguments⟩, -⟩ := h
  have hnameDoc (s : σ) : (name.document.run host s).value = .text name.raw := by
    rw [Verbatim.document, hname]
    exact (hhost.always_comments _ s).2
  have hargumentsDoc (s : σ) : ((Verbatim.optionalDocument typeArguments).run host s).value =
      argumentsDoc ⟨name, typeArguments, attributes, selfClosing⟩ := by
    cases typeArguments with
    | none => rfl
    | some arguments =>
      have hnone : arguments.comments = [] := harguments
      rw [Verbatim.optionalDocument, Verbatim.document, hnone]
      exact (hhost.always_comments _ s).2
  rw [document]
  simp only [run_bind, hnameDoc, hargumentsDoc]
  exact ⟨_, Attribute.forall₂_isPrinted attributes _, rfl⟩

/-- **On one line** a self-closing tag without comments is the texts of its document. -/
theorem exists_typeset_doc (hhost : host.AddsNothing) (h : tag.allComments = [])
    (hclosing : tag.selfClosing = true) (o : Options) (hindent : 0 < o.layout.indentWidth)
    (hdocs : List.Forall₂ (Attribute.IsPrinted host o.language ancestors) tag.attributes docs)
    {doc : Doc} (hdoc : doc = tag.doc o.language (.text tag.name.raw) tag.argumentsDoc docs)
    (halternatives : doc.hasAlternatives = true)
    (hheld : doc.willBreak = false → doc.suffixDepth = 0) :
    ∃ output, doc.typeset o.layout = .ok output ∧
      ('\n' ∉ output.toList → output = String.join doc.flatTexts) := by
  have hname := nameHasComments_of_allComments h
  have hargumentsDoc : tag.argumentsDoc.isLineless = true := by
    rw [argumentsDoc]
    cases tag.typeArguments <;> rfl
  obtain ⟨-, rfl, hcase⟩ | ⟨lone, only, hlone, rfl, hplain, -, hcase⟩ | ⟨-, hne, -, hcase⟩ :=
    doc_cases o.language hclosing hname hdocs.length_eq.symm
  · have hlineless : doc.isLineless = true := by
      rw [hdoc, hcase]
      simp [Doc.isLineless, Doc.allLineless, hargumentsDoc]
    exact ⟨_, Doc.typeset_eq_join_of_isLineless o.layout hindent hlineless, fun _ => rfl⟩
  · have honly : only.isLineless = true := by
      rw [hlone] at hdocs
      obtain ⟨name, typeArguments, attributes, selfClosing⟩ := tag
      obtain rfl : attributes = [lone] := hlone
      rw [allComments, List.append_eq_nil_iff] at h
      have hnone : lone.allComments = [] := (List.append_eq_nil_iff.mp h.2).1
      exact Attribute.isLineless_of_isPlainString hhost hnone hplain (List.forall₂_cons.mp hdocs).1
    have hlineless : doc.isLineless = true := by
      rw [hdoc, hcase]
      simp [Doc.grouped, Doc.isLineless, Doc.allLineless, hargumentsDoc, honly]
    exact ⟨_, Doc.typeset_eq_join_of_isLineless o.layout hindent hlineless, fun _ => rfl⟩
  · rw [hcase] at hdoc
    subst hdoc
    exact Doc.exists_typeset_group o.layout hindent (hasLine_inside o.language tag hne)
      halternatives hheld

theorem lineEnd_eq (hclosing : tag.selfClosing = true) (o : LanguageOptions) :
    tag.lineEnd o = if o.closingBracketSameLine = true ∨ tag.attributes ≠ [] ∧ tag.keepsLone = false
      then "/>" else " />" := by
  rw [lineEnd, endOnLine, bracket, hclosing]
  cases tag.attributes <;> cases tag.keepsLone <;> cases o.closingBracketSameLine <;> rfl

end OpeningTag

/-! ## Tags as text -/

/-- Anything may be written, and **nothing comes from the host**. -/
def Vocabulary.withoutOwn : Vocabulary :=
  ⟨fun _ => True, fun _ => True, fun _ => True, fun _ => False⟩

namespace Node

/-- **The end of a self-closing tag on one line.**  Without comments, and with a host that prints
expressions as they are written, an opening tag that is self-closing is formatted; and if that takes
one line, it is the name, the type arguments and each attribute behind a space, and then `/>`.  A
space stands before it only where the options do not ask for the bracket on the line, and of
attributes there is none or a single string. -/
theorem format_selfClosing (hhost : host.AddsNothing)
    (hraw : ∀ e ancestors s, (host.expression e ancestors s).1 = .ok (.text e.raw))
    (position : Position) (o : Options) (hindent : 0 < o.layout.indentWidth) {tag : OpeningTag}
    (hclosing : tag.selfClosing = true) (hnone : tag.allComments = []) (s : σ) :
    ∃ output docs, ((openingTag tag).format host position o s).1 = .ok output ∧
      List.Forall₂ (Attribute.IsPrinted host o.language position.ancestors) tag.attributes docs ∧
      ('\n' ∉ output.toList →
        output = tag.upToEnd (docs.map fun doc => String.join doc.flatTexts) ++
          if o.language.closingBracketSameLine = true ∨ tag.attributes ≠ [] ∧ tag.keepsLone = false
            then "/>" else " />") := by
  have hverbatim := Host.printsVerbatim_withDefaults hraw
  have hdocument : (openingTag tag).printing position o.language =
      tag.document o.language position.ancestors := by rw [printing, Node.document]
  have hsame := OpeningTag.indifferent (o := o.language) hhost position.ancestors tag hnone s
  obtain ⟨docs, hdocs, hvalue⟩ :
      ∃ docs, List.Forall₂ (Attribute.IsPrinted host o.language position.ancestors)
        tag.attributes docs ∧ ((tag.document o.language position.ancestors).run host s).value =
          tag.doc o.language (.text tag.name.raw) tag.argumentsDoc docs :=
    OpeningTag.exists_value_document hhost hnone s
  set doc := ((tag.document o.language position.ancestors).run host s).value with hdoc
  have hregular : doc.Regular .withoutOwn := by
    rw [hdoc, ← hsame]
    exact OpeningTag.gathers_regular (hverbatim.isRegular trivial) position.ancestors tag
      (fun _ _ => trivial) (fun _ _ _ _ => trivial) s
  obtain ⟨output, houtput, hone⟩ :=
    OpeningTag.exists_typeset_doc hhost hnone hclosing o hindent hdocs hvalue
    (hregular.hasAlternatives fun _ h => h.elim) (hregular.suffixDepth_eq_zero fun _ h => h.elim)
  have hprint : ((openingTag tag).print host position o.language s).1 = .ok doc := by
    have hfailures :
        (((openingTag tag).printing position o.language).run host s).failures = [] := by
      rw [hdocument, ← hsame]
      exact hverbatim.failures_run _ s
    rw [print_of_failures hfailures, hdocument]
  refine ⟨output, docs, format_of_print hprint houtput, hdocs, fun hline => ?_⟩
  rw [hone hline, hvalue, OpeningTag.join_flatTexts_doc o.language hclosing
    (OpeningTag.nameHasComments_of_allComments hnone) hdocs.length_eq.symm,
    OpeningTag.lineEnd_eq hclosing]

/-- `<input disabled />` -/
def disabledInput : OpeningTag := ⟨⟨"input", []⟩, none, [.bare ⟨"disabled", []⟩ []], true⟩

/-- On one line, with its one attribute. -/
theorem format_selfClosing_disabledInput :
    disabledInput.selfClosing = true ∧ disabledInput.allComments = [] ∧
      0 < ({} : Options).layout.indentWidth ∧
      ((openingTag disabledInput).format Host.verbatim {} {} ()).1 = .ok "<input disabled/>" ∧
      ∃ docs, List.Forall₂ (Attribute.IsPrinted Host.verbatim {} []) disabledInput.attributes docs ∧
        "<input disabled/>" =
          disabledInput.upToEnd (docs.map fun doc => String.join doc.flatTexts) ++ "/>" := by
  have hclosing : disabledInput.selfClosing = true := rfl
  have hnone : disabledInput.allComments = [] := rfl
  have hformat : ((openingTag disabledInput).format Host.verbatim {} {} ()).1 =
      .ok "<input disabled/>" := rfl
  obtain ⟨output, docs, houtput, hdocs, hone⟩ := format_selfClosing Host.addsNothing_verbatim
    (fun _ _ _ => rfl) {} {} (by decide) hclosing hnone ()
  obtain rfl : output = "<input disabled/>" := Except.ok.inj (houtput.symm.trans hformat)
  exact ⟨hclosing, hnone, by decide, hformat, docs, hdocs, hone (by decide)⟩

/-- The space that a tag without attributes ends with, and a tag with a single string, **is
missing** behind an attribute without a value, although the options do not ask for the
bracket on the line. -/
theorem format_selfClosing_lacksSpace :
    let bare : OpeningTag := ⟨⟨"input", []⟩, none, [], true⟩
    let typed : OpeningTag :=
      ⟨⟨"input", []⟩, none, [.valued ⟨"type", []⟩ (.string "'text'") []], true⟩
    ({} : Options).language.closingBracketSameLine = false ∧
      disabledInput.selfClosing = true ∧ disabledInput.allComments = [] ∧
      ((openingTag bare).format Host.verbatim {} {} ()).1 = .ok "<input />" ∧
      ((openingTag typed).format Host.verbatim {} {} ()).1 = .ok "<input type=\"text\" />" ∧
      ((openingTag disabledInput).format Host.verbatim {} {} ()).1 = .ok "<input disabled/>" ∧
      '\n' ∉ "<input disabled/>".toList ∧ ¬ " />".toList <:+ "<input disabled/>".toList :=
  ⟨rfl, rfl, rfl, rfl, rfl, rfl, by decide, by decide⟩

end Node

end Reflow
