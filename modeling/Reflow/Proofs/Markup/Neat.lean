import Reflow.Proofs.Doc.Neat
import Reflow.Proofs.Markup.Outcome
import Reflow.Proofs.Markup.Wrapped
import Reflow.Proofs.Syntax.Places

/-!
# Proofs/Markup/Neat — children without blanks at the ends of lines

With text among the children, what is laid out is contents and separators in turn, and nothing
stands between two separators but where both are soft (`Part.Wrapped`); without text it is printed
children, one a line, with empty lines between them (`Part.IsStack`).  Both are neat, on one line
and on lines of their own.  A space that stands in front of everything is spelled out in markup,
where it is no blank; in an embedded block it is one.
-/

namespace Reflow

open Doc (Neat IsSolid)
open Text (edgeAfter)

/-! ## Spaces -/

namespace SpaceStyle

/-- A style whose space may be set **at any edge**, on one line or where the line breaks. -/
structure IsNeat (style : SpaceStyle) : Prop where
  doc (mode : Mode) : style.doc.Neat mode .ragged .ragged
  oneLine : '\n' ∉ style.spelled.toList

theorem isSolid_spelled (o : LanguageOptions) : Text.IsSolid (inMarkup o).spelled := by
  have hchars := toList_spelled o
  refine ⟨fun hempty => ?_, ?_, ?_⟩
  · rw [hempty] at hchars
    cases hchars
  · rw [hchars]
    cases o.quotes <;> decide
  · rw [hchars]
    cases o.quotes <;> rfl

theorem isNeat_inMarkup (o : LanguageOptions) : (inMarkup o).IsNeat := by
  have hspelled := isSolid_spelled o
  have hbroken : (Doc.text (inMarkup o).spelled ++ Doc.line .orNil).Neat .broken .ragged .ragged :=
    (IsSolid.text hspelled .broken).append (.line .broken .orNil)
  have hflat : (Doc.text " ").Neat .flat .ragged .ragged := .text .flat .ragged (by decide)
  refine ⟨fun mode => ?_, hspelled.oneLine⟩
  cases mode with
  | flat => exact .ifFlat hflat hbroken
  | broken => exact .ifBroken hflat hbroken

theorem isNeat_embedded : embedded.IsNeat :=
  ⟨fun mode => .text mode .ragged (by decide), by decide⟩

theorem isNeat_of (o : LanguageOptions) (isEmbedded : Bool) :
    (SpaceStyle.of o isEmbedded).IsNeat := by
  cases isEmbedded with
  | true => exact isNeat_embedded
  | false => exact isNeat_inMarkup o

end SpaceStyle

namespace Part

/-! ## Wrapped parts are neat -/

/-- A part that **leaves a clean edge**, if it is a content. -/
def IsTidy (part : Part) : Prop := ∀ space, part.isFilled → (part.doc space).IsSolid

variable {style : SpaceStyle} {localized : Bool} {parts rest : List Part} {mode : Mode} {e : Edge}

theorem neat_separator (hstyle : style.IsNeat) {separator : Part}
    (h : IsSeparator localized separator) (mode : Mode) :
    (separator.doc style.doc).Neat mode .clean .ragged := by
  obtain rfl | ⟨kind, rfl⟩ | ⟨-, rfl⟩ := h
  · exact .weaken (Edge.clean_le _) (Edge.le_refl _) (hstyle.doc mode)
  · exact .line mode kind
  · exact .weaken (Edge.le_refl _) (Edge.le_ragged _) (.empty mode .clean)

/-- A separator on lines of its own, behind a content and **in front of another one**. -/
theorem neat_multilineDoc_separator (hstyle : style.IsNeat) {content separator : Part}
    (filled : content.isFilled) (h : IsSeparator localized separator) (hne : rest ≠ [])
    (beforeThat : Option Part) (mode : Mode) :
    (multilineDoc style beforeThat (some content) separator rest.isEmpty).1.Neat
      mode .clean .ragged := by
  have hdoc := neat_separator hstyle h mode
  by_cases hspace : separator = .space
  · subst hspace
    rw [multilineDoc_space _ _ filled, List.isEmpty_eq_false_iff.mpr hne]
    exact hdoc
  · rw [multilineDoc_fst hspace]
    exact hdoc

namespace Wrapped

/-- **Wrapped parts are neat** on lines of their own.  They leave a clean edge, but perhaps for a
space at their end. -/
theorem neat_filled (hstyle : style.IsNeat) (h : Wrapped localized parts)
    (htidy : ∀ part ∈ parts, part.IsTidy)
    (hend : [.space] <:+ parts → edgeAfter .clean style.spelled ≤ e)
    (beforeThat before : Option Part) :
    (Doc.filled ((multilineDocsAfter style beforeThat before parts).map Prod.fst)).Neat
      mode .ragged e := by
  have hsolid {content : Part} (filled : content.isFilled) (htidy : content.IsTidy)
      (beforeThat before : Option Part) (isLast : Bool) :
      (multilineDoc style beforeThat before content isLast).1.IsSolid := by
    rw [multilineDoc_fst (ne_space_of_isFilled filled)]
    exact htidy _ filled
  induction h generalizing beforeThat before with
  | last filled =>
    have hcontent := hsolid filled (htidy _ List.mem_cons_self) beforeThat before true
    exact .filled_last fun mode => .weaken (Edge.le_refl _) (Edge.clean_le e) (hcontent mode)
  | @lastSpace content filled =>
    have hcontent := hsolid filled (htidy _ List.mem_cons_self) beforeThat before false
    have hspace (mode : Mode) : (Doc.text style.spelled).Neat mode .clean e :=
      .weaken (Edge.le_refl _) (hend ⟨[content], rfl⟩) (.text mode .clean hstyle.oneLine)
    simp only [multilineDocsAfter, List.map_cons, multilineDoc_space _ _ filled]
    exact .filled_pair hcontent hspace
  | @cons content separator rest filled between tail ih =>
    obtain ⟨hhere, -, hlater⟩ : content.IsTidy ∧ separator.IsTidy ∧ ∀ part ∈ rest, part.IsTidy := by
      simpa using htidy
    have hcontent := hsolid filled hhere beforeThat before false
    have hseparator :=
      @neat_multilineDoc_separator _ _ rest hstyle _ _ filled between tail.ne_nil before
    refine .filled_cons ?_ hcontent hseparator (ih hlater (fun hsuffix => ?_) _ _)
    · obtain ⟨first, others, rfl⟩ := List.exists_cons_of_ne_nil tail.ne_nil
      exact List.cons_ne_nil _ _
    · exact hend (hsuffix.trans ⟨[content, separator], rfl⟩)
  | @softLines content rest filled tail ih =>
    obtain ⟨hhere, -, -, -, hlater⟩ : content.IsTidy ∧ (line .orNil).IsTidy ∧ empty.IsTidy ∧
        (line .orNil).IsTidy ∧ ∀ part ∈ rest, part.IsTidy := by
      simpa using htidy
    have hcontent := hsolid filled hhere beforeThat before false
    refine .filled_soft (List.cons_ne_nil _ _) hcontent
      (.filled_soft ?_ (fun mode => .empty mode .ragged) (ih hlater (fun hsuffix => ?_) _ _))
    · obtain ⟨first, others, rfl⟩ := List.exists_cons_of_ne_nil tail.ne_nil
      exact List.cons_ne_nil _ _
    · exact hend (hsuffix.trans ⟨[content, line .orNil, empty, line .orNil], rfl⟩)

/-- So they are **on one line**, where a soft line is nothing. -/
theorem neat_flatDoc (hstyle : style.IsNeat) (h : Wrapped localized parts)
    (htidy : ∀ part ∈ parts, part.IsTidy) : (flatDoc style parts).Neat .flat .ragged .ragged := by
  induction h with
  | last filled =>
    have hcontent := htidy _ List.mem_cons_self style.doc filled
    exact .weaken (Edge.le_refl _) (Edge.le_ragged _) (.singleton (hcontent .flat))
  | lastSpace filled =>
    have hcontent := htidy _ List.mem_cons_self style.doc filled
    exact .cons (hcontent .flat)
      (.singleton (.weaken (Edge.clean_le _) (Edge.le_refl _) (hstyle.doc .flat)))
  | @cons content separator rest filled between _ ih =>
    obtain ⟨hhere, -, hlater⟩ : content.IsTidy ∧ separator.IsTidy ∧ ∀ part ∈ rest, part.IsTidy := by
      simpa using htidy
    exact .cons (hhere _ filled .flat) (.cons (neat_separator hstyle between .flat) (ih hlater))
  | @softLines content rest filled _ ih =>
    obtain ⟨hhere, -, -, -, hlater⟩ : content.IsTidy ∧ (line .orNil).IsTidy ∧ empty.IsTidy ∧
        (line .orNil).IsTidy ∧ ∀ part ∈ rest, part.IsTidy := by
      simpa using htidy
    have hrest : (flatDoc style rest).Neat .flat .clean .ragged :=
      .weaken (Edge.clean_le _) (Edge.le_refl _) (ih hlater)
    exact .cons (hhere _ filled .flat)
      (.cons (.noSpace .clean) (.cons (.empty .flat .clean) (.cons (.noSpace .clean) hrest)))

end Wrapped

/-- With a space in front of them, wrapped parts are neat **in markup**, where that
space is spelled out. -/
theorem neat_filled_spaced {o : LanguageOptions} (hrest : rest = [] ∨ Wrapped localized rest)
    (htidy : ∀ part ∈ rest, part.IsTidy) :
    (Doc.filled
      ((multilineDocs (SpaceStyle.inMarkup o) (.empty :: .space :: rest)).map Prod.fst)).Neat
      mode .ragged .clean := by
  have hspelled := Doc.IsSolid.text (SpaceStyle.isSolid_spelled o)
  have hempty (mode : Mode) : (Doc.text "").Neat mode .ragged .ragged := .empty mode .ragged
  obtain rfl | hwrapped := hrest
  · exact .filled_pair hempty hspelled
  · obtain ⟨first, others, rfl⟩ := List.exists_cons_of_ne_nil hwrapped.ne_nil
    have hend : edgeAfter .clean (SpaceStyle.inMarkup o).spelled ≤ .clean := by
      rw [(SpaceStyle.isSolid_spelled o).edgeAfter]
      exact Edge.le_refl _
    exact .filled_cons (List.cons_ne_nil _ _) hempty
      (fun mode => (hspelled mode).append (.line mode .hard))
      (hwrapped.neat_filled (SpaceStyle.isNeat_inMarkup o) htidy (fun _ => hend) _ _)

theorem neat_flatDoc_spaced (hstyle : style.IsNeat) (hrest : rest = [] ∨ Wrapped localized rest)
    (htidy : ∀ part ∈ rest, part.IsTidy) :
    (flatDoc style (.empty :: .space :: rest)).Neat .flat .ragged .ragged := by
  have hlater : (flatDoc style rest).Neat .flat .ragged .ragged := by
    obtain rfl | hwrapped := hrest
    · exact .nil .flat .ragged
    · exact hwrapped.neat_flatDoc hstyle htidy
  exact .cons (.empty .flat .ragged) (.cons (hstyle.doc .flat) hlater)

namespace IsStack

/-- A stack of tidy children is **neat, one a line**.  An empty line needs a clean
edge in front of it. -/
theorem neat {parts : List Part} (h : IsStack parts) (hne : parts ≠ [])
    (hlast : ∀ last ∈ parts.getLast?, last.isLineOrEmpty = false)
    (htidy : ∀ part ∈ parts, part.IsTidy) (space : Doc) (mode : Mode) :
    (Doc.concat (parts.map (doc space))).Neat mode (if startsEmpty parts then .clean else .ragged)
      .clean := by
  match parts, h with
  | [content], ⟨hcontent, _⟩ =>
    obtain rfl | ⟨doc, rfl⟩ := hcontent
    · cases hlast .empty rfl
    · exact .singleton (htidy _ List.mem_cons_self space rfl mode)
  | content :: separator :: rest, ⟨hcontent, hseparator, hrest⟩ =>
    obtain rfl : separator = .line .hard := hseparator
    have hne : rest ≠ [] := by
      rintro rfl
      cases hlast (.line .hard) rfl
    have hrestLast : ∀ last ∈ rest.getLast?, last.isLineOrEmpty = false := by
      have heq : (content :: .line .hard :: rest).getLast? = rest.getLast? :=
        List.getLast?_append_of_ne_nil [content, .line .hard] hne
      rwa [heq] at hlast
    have hrestTidy : ∀ part ∈ rest, part.IsTidy := fun part hpart =>
      htidy part (List.mem_cons_of_mem _ (List.mem_cons_of_mem _ hpart))
    have hlater := IsStack.neat hrest hne hrestLast hrestTidy space mode
    -- the line is not indented if an empty one follows
    have hline : (Doc.concat (.line .hard :: rest.map (doc space))).Neat mode .clean .clean := by
      match rest, hrest with
      | .empty :: next :: others, ⟨_, hnext, _⟩ =>
        obtain rfl : next = .line .hard := hnext
        exact .blank rfl hlater
      | [.empty], _ => cases hrestLast .empty rfl
      | .printed doc :: others, _ => exact .cons (.line mode .hard) hlater
    obtain rfl | ⟨doc, rfl⟩ := hcontent
    · exact .cons (.empty mode .clean) hline
    · exact .cons (htidy _ List.mem_cons_self space rfl mode) hline

end IsStack

/-- Without spaces, parts on lines of their own are **printed as they are**. -/
theorem multilineDocsAfter_fst (h : .space ∉ parts) (beforeThat before : Option Part) :
    (multilineDocsAfter style beforeThat before parts).map Prod.fst =
      parts.map (doc style.doc) := by
  induction parts generalizing beforeThat before with
  | nil => rfl
  | cons part parts ih =>
    obtain ⟨hpart, hparts⟩ : Part.space ≠ part ∧ .space ∉ parts := by simpa using h
    rw [multilineDocsAfter, List.map_cons, List.map_cons, ih hparts,
      multilineDoc_fst (Ne.symm hpart)]

/-! ## What is laid out -/

theorem isSolid_of_isWord {s : String} (h : Text.IsWord s.toList) : Text.IsSolid s := by
  obtain ⟨hne, hword⟩ := h
  refine ⟨by simpa using hne, fun hbreak => ?_, ?_⟩
  · exact absurd (hword _ hbreak) (by decide)
  · have hlast := hword _ (List.getLast_mem hne)
    rw [Text.endsBlank, List.getLast?_eq_some_getLast hne]
    rw [Text.isBlank] at hlast
    simp only [Bool.or_eq_false_iff] at hlast
    simp [hlast]

/-- The parts of children whose documents leave a clean edge **do so too**. -/
theorem isTidy_of_mem_arrange {children : List Child}
    (hdocs : ∀ kind doc, .printed kind doc ∈ children → doc.IsSolid) {part : Part}
    (hpart : part ∈ arrange localized (children.any Child.isMeaningfulText) children) :
    part.IsTidy := by
  intro space filled
  cases part with
  | word s => exact .text (isSolid_of_isWord (isWord_of_mem_arrange hpart))
  | printed doc =>
    obtain ⟨kind, hchild⟩ := exists_printed_of_mem_arrange hpart
    exact hdocs kind doc hchild
  | empty | space | line => cases filled

end Part

/-! ## Bodies -/

section Content

open Reflow.Part

variable {o : LanguageOptions} {isEmbedded localized : Bool} {children : List Child} {e : Edge}

/-- With text among them, children on lines of their own are neat.  In an embedded block there may
be no space in front of them, and one behind them **leaves its mark**. -/
theorem Part.neat_filled_arrange (text : children.any Child.isMeaningfulText = true)
    (hdocs : ∀ kind doc, .printed kind doc ∈ children → doc.IsSolid)
    (hfront : isEmbedded = true → (Child.read children).spaceAtStart = false)
    (hback : isEmbedded = true → (Child.read children).spaceAtEnd = true → e = .ragged)
    (mode : Mode) :
    (Doc.filled ((multilineDocs (SpaceStyle.of o isEmbedded)
      (arrange localized (children.any Child.isMeaningfulText) children)).map Prod.fst)).Neat
      mode .ragged e := by
  obtain ⟨kept, hmerged, hstarts, hread, harrange⟩ := exists_arrange_eq localized children
  have hprefix := hmerged.prefix_space_iff hstarts
  have hsuffix := hmerged.suffix_space_iff
  rw [← harrange, hread] at hprefix hsuffix
  have htidy := fun part => @isTidy_of_mem_arrange localized children hdocs part
  obtain hwrapped | ⟨rest, hparts, hrest⟩ := wrapped_arrange localized text
  · refine hwrapped.neat_filled (SpaceStyle.isNeat_of o isEmbedded) htidy
      (fun hspace => ?_) none none
    cases isEmbedded with
    | true =>
      rw [hback rfl (hsuffix.mp hspace)]
      exact Edge.le_ragged _
    | false =>
      rw [SpaceStyle.of, if_neg Bool.false_ne_true, (SpaceStyle.isSolid_spelled o).edgeAfter]
      exact Edge.clean_le e
  · rw [hparts] at hprefix htidy ⊢
    cases isEmbedded with
    | true =>
      rw [hfront rfl] at hprefix
      cases hprefix.mp ⟨rest, rfl⟩
    | false =>
      refine .weaken (Edge.le_refl _) (Edge.clean_le e)
        (neat_filled_spaced hrest fun part hpart => ?_)
      exact htidy part (List.mem_cons_of_mem _ (List.mem_cons_of_mem _ hpart))

/-- Without text, children on lines of their own are neat **if there are any**. -/
theorem Part.neat_stack_arrange (text : children.any Child.isMeaningfulText = false)
    (hdocs : ∀ kind doc, .printed kind doc ∈ children → doc.IsSolid)
    (hcounts : e = .clean → children.any Child.counts = true) (space : Doc) (mode : Mode) :
    (Doc.concat ((arrange localized (children.any Child.isMeaningfulText) children).map
      (doc space))).Neat mode .ragged e := by
  have htidy := fun part => @isTidy_of_mem_arrange localized children hdocs part
  have hne := @arrange_ne_nil_of_counts localized children
  have hstack := isStack_arrange localized text (children.any Child.isMeaningfulText)
  obtain hnil | hrow | hspaced := (arrange_cases localized children).1
  · rw [hnil]
    cases e with
    | clean => exact absurd hnil (hne (hcounts rfl))
    | ragged => exact .nil mode .ragged
  · have hneat := hstack.neat hrow.ne_nil hrow.last_isLineOrEmpty htidy space mode
    rw [hrow.startsEmpty_eq_false, if_neg Bool.false_ne_true] at hneat
    exact .weaken (Edge.le_refl _) (Edge.clean_le e) hneat
  · exact absurd hspaced.space_mem hstack.space_not_mem

namespace Shell

/-- Children **on lines of their own** are neat. -/
theorem neat_content (hdocs : ∀ kind doc, .printed kind doc ∈ children → doc.IsSolid)
    (hcounts : e = .clean → children.any Child.counts = true)
    (hfront : isEmbedded = true → (Child.read children).spaceAtStart = false)
    (hback : isEmbedded = true → (Child.read children).spaceAtEnd = true → e = .ragged)
    (mode : Mode) : let hasText := children.any Child.isMeaningfulText
    (content hasText (multilineDocs (SpaceStyle.of o isEmbedded)
      (arrange localized hasText children))).Neat mode .ragged e := by
  intro hasText
  rw [content]
  split_ifs with htext
  · exact neat_filled_arrange htext hdocs hfront hback mode
  · have htext : children.any Child.isMeaningfulText = false := eq_false_of_ne_true htext
    have hspace := (isStack_arrange localized htext hasText).space_not_mem
    rw [multilineDocs, multilineDocsAfter_fst hspace]
    exact .group true (neat_stack_arrange htext hdocs hcounts _ .flat)
      (neat_stack_arrange htext hdocs hcounts _ .broken)

/-- So they are **on one line**. -/
theorem neat_flatDoc (hdocs : ∀ kind doc, .printed kind doc ∈ children → doc.IsSolid) :
    (flatDoc (SpaceStyle.of o isEmbedded)
      (arrange localized (children.any Child.isMeaningfulText) children)).Neat
      .flat .ragged .ragged := by
  have hstyle := SpaceStyle.isNeat_of o isEmbedded
  have htidy := fun part => @isTidy_of_mem_arrange localized children hdocs part
  cases htext : children.any Child.isMeaningfulText with
  | true =>
    obtain hwrapped | ⟨rest, hparts, hrest⟩ := wrapped_arrange localized htext
    · rw [htext] at hwrapped htidy
      exact hwrapped.neat_flatDoc hstyle htidy
    · rw [htext] at hparts htidy
      rw [hparts] at htidy ⊢
      refine neat_flatDoc_spaced hstyle hrest fun part hpart => ?_
      exact htidy part (List.mem_cons_of_mem _ (List.mem_cons_of_mem _ hpart))
  | false =>
    rw [← htext]
    exact @neat_stack_arrange localized children .ragged htext hdocs (by cases ·) _ .flat

variable {shell : Shell}

theorem isSolid_closingDoc (hopening : shell.closing.isSome = true)
    (hclosing : ∀ doc ∈ shell.closing, doc.IsSolid) : shell.closingDoc.IsSolid := by
  rw [closingDoc]
  cases hshell : shell.closing with
  | none =>
    rw [hshell] at hopening
    cases hopening
  | some closing => exact hclosing closing hshell

theorem neat_closingDoc (hclosing : ∀ doc ∈ shell.closing, doc.IsSolid) (mode : Mode) :
    shell.closingDoc.Neat mode .clean .clean := by
  rw [closingDoc]
  cases hshell : shell.closing with
  | none => exact .nil mode .clean
  | some closing => exact (hclosing closing hshell).neat mode .clean

/-- Tags **with lines of their own** between them. -/
theorem isSolid_multiline {inside : Doc} (hopening : shell.opening.IsSolid)
    (hclosing : shell.closingDoc.IsSolid) (h : inside.IsSolid) :
    (shell.multiline inside).IsSolid := by
  refine IsSolid.group (fun mode => ?_) false
  have hlines : (Doc.indent (Doc.line .hard ++ inside)).Neat mode .clean .clean :=
    .indent (.append (.line mode .hard) (h mode))
  exact .cons (hopening mode) (.cons hlines (.cons (.line mode .hard) (.singleton (hclosing mode))))

/-- Tags **around children that count** leave a clean edge. -/
theorem isSolid_around (hopening : shell.opening.IsSolid) (hclosing : shell.closingDoc.IsSolid)
    (hdocs : ∀ kind doc, .printed kind doc ∈ children → doc.IsSolid)
    (hcounts : children.any Child.counts = true) : (shell.around o false children).IsSolid := by
  have hcontent :
      (content (children.any Child.isMeaningfulText)
        (multilineDocs (SpaceStyle.of o false)
          (arrange shell.isLocalized (children.any Child.isMeaningfulText) children))).IsSolid :=
    @neat_content o false shell.isLocalized children .clean hdocs (fun _ => hcounts) (by cases ·)
      (by cases ·)
  have hlines := isSolid_multiline hopening hclosing hcontent
  rw [around]
  simp only [Bool.false_eq_true, if_false]
  split_ifs
  · exact hlines
  · have hflat := @neat_flatDoc o false shell.isLocalized children hdocs
    have hline : (shell.onOneLine (flatDoc (SpaceStyle.of o false) (arrange shell.isLocalized
        (children.any Child.isMeaningfulText) children))).Neat .flat .ragged .clean :=
      .flatGroup false
        (.cons (hopening .flat)
          (.cons (.weaken (Edge.clean_le _) (Edge.le_refl _) hflat) (.singleton (hclosing .flat))))
    exact fun mode => .conditional mode hline (hlines .broken)

/-- A body that is not set out is printed right between the tags, and leaves a clean edge.  So a
shell is neat **if its body is, where it is set out**. -/
theorem neat_doc (hopening : shell.opening.IsSolid) (hclosing : ∀ doc ∈ shell.closing, doc.IsSolid)
    (hdocs : ∀ kind doc, .printed kind doc ∈ children → doc.IsSolid)
    (haround : (shell.isElement && Child.noContent children) = false →
      (∀ template, children ≠ [.printed (.container true) template]) →
      ∀ mode, (shell.around o isEmbedded children).Neat mode .ragged e) (mode : Mode) :
    (shell.doc o isEmbedded children).Neat mode .ragged e := by
  have hclean {doc : Doc} (h : doc.Neat mode .ragged .clean) : doc.Neat mode .ragged e :=
    .weaken (Edge.le_refl _) (Edge.clean_le e) h
  rw [doc.eq_def]
  split_ifs with hempty
  · refine hclean ?_
    rw [empty]
    cases hshell : shell.closing with
    | none => exact hopening mode
    | some closing => exact (hopening mode).append ((hclosing closing hshell).neat mode .clean)
  · split
    · next template =>
      have htemplate := (hdocs _ _ List.mem_cons_self).neat mode .clean
      exact hclean
        (.cons (hopening mode) (.cons htemplate (.singleton (neat_closingDoc hclosing mode))))
    · next hplain => exact haround (eq_false_of_ne_true hempty) hplain mode

end Shell

end Content

/-! ## Places -/

/-- A place that **leaves no blanks** at the end of a line.  In a tag without a name a line comment
has to be among the comments that are printed, or another one is; an expression may be replaced by
comments on one line; between two tags there has to be something, but for an element without
content; and where what is spread may be in parentheses already, it has no comments. -/
def Place.isTidy (inParens : Bool) : Place → Bool
  | fragmentTag comments => !comments.any Comment.isLine || comments.any Comment.isDangling
  | lone comments => comments.any Comment.isDangling && !comments.any Comment.isLine
  | body isElement isClosed nodes =>
    isElement && !Node.areSetOut nodes || isClosed && (nodes.map Node.asChild).any Child.counts
  | spread comments => !inParens || comments.isEmpty

/-- A body that is tidy has **something in it**, if it is set out. -/
theorem Place.any_counts_of_isTidy {inParens isElement isClosed : Bool} {nodes : List Node}
    {children : List Child} (h : (body isElement isClosed nodes).isTidy inParens = true)
    (hchildren : List.Forall₂ Node.IsChild nodes children)
    (hcontent : (isElement && Child.noContent children) = false)
    (hplain : ∀ template, children ≠ [.printed (.container true) template]) :
    isClosed = true ∧ children.any Child.counts = true := by
  obtain hspecial | hcounts := Bool.or_eq_true_iff.mp h
  · obtain ⟨rfl, hout⟩ := Bool.and_eq_true_iff.mp hspecial
    obtain hnone | ⟨template, htemplate⟩ :=
      Node.special_of_not_areSetOut hchildren (by simpa using hout)
    · rw [hnone] at hcontent
      cases hcontent
    · exact absurd htemplate (hplain template)
  · obtain ⟨hclosed, hcounts⟩ := Bool.and_eq_true_iff.mp hcounts
    exact ⟨hclosed, (Node.any_counts hchildren).trans hcounts⟩

namespace Shell

variable {o : LanguageOptions} {inParens : Bool} {shell : Shell} {nodes : List Node}
  {children : List Child}

/-- A shell around **a tidy body** leaves a clean edge. -/
theorem isSolid_doc
    (hplace : (Place.body shell.isElement shell.closing.isSome nodes).isTidy inParens = true)
    (hopening : shell.opening.IsSolid) (hclosing : ∀ doc ∈ shell.closing, doc.IsSolid)
    (hchildren : List.Forall₂ Node.IsChild nodes children)
    (hdocs : ∀ kind doc, .printed kind doc ∈ children → doc.IsSolid) :
    (shell.doc o false children).IsSolid := by
  refine neat_doc hopening hclosing hdocs fun hcontent hplain => ?_
  obtain ⟨hclosed, hcounts⟩ := Place.any_counts_of_isTidy hplace hchildren hcontent hplain
  exact isSolid_around hopening (isSolid_closingDoc hclosed hclosing) hdocs hcounts

/-- The body of **an embedded block** is neat. -/
theorem neat_doc_embedded {e : Edge} (hopening : shell.opening.IsSolid)
    (hclosing : ∀ doc ∈ shell.closing, doc.IsSolid)
    (hchildren : List.Forall₂ Node.IsChild nodes children)
    (hdocs : ∀ kind doc, .printed kind doc ∈ children → doc.IsSolid)
    (hfront : (Child.read (nodes.map Node.asChild)).spaceAtStart = false)
    (hback : e = .clean → (Place.body shell.isElement true nodes).isTidy inParens = true ∧
      (Child.read (nodes.map Node.asChild)).spaceAtEnd = false) (mode : Mode) :
    (shell.doc o true children).Neat mode .ragged e := by
  refine neat_doc hopening hclosing hdocs (fun hcontent hplain mode => ?_) mode
  rw [around]
  simp only [if_true]
  refine neat_content hdocs (fun hclean => ?_) (fun _ => ?_) (fun _ hspace => ?_) mode
  · exact (Place.any_counts_of_isTidy (hback hclean).1 hchildren hcontent hplain).2
  · rw [Node.spaceAtStart_read hchildren, hfront]
  · cases e with
    | clean =>
      rw [Node.spaceAtEnd_read hchildren, (hback rfl).2] at hspace
      cases hspace
    | ragged => rfl

end Shell

end Reflow
