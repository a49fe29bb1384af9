import Reflow.Proofs.Doc.Raising
import Reflow.Proofs.Markup.Alternating
import Reflow.Proofs.Markup.Carrying
import Reflow.Proofs.Markup.Row
import Reflow.Proofs.Markup.Variants

/-!
# Proofs/Markup/Regular — the documents that printing can build

Printing builds its documents in few ways.  `Doc.Regular` is the grammar of what may come of them:
which texts there are, that a choice has more than one variant, and that the parts of a fill are
contents and separators in turn.  Each piece that documents are put together from keeps to it, up to
a shell with regular children (`Shell.regular_doc`).
-/

namespace Reflow

open Text (IsWord)

/-! ## The grammar -/

/-- What documents are **built from**. -/
structure Vocabulary where
  /-- Texts that are printed as they are written. -/
  written : String → Prop
  /-- How a space that matters is printed. -/
  style : SpaceStyle → Prop
  /-- The documents of children. -/
  child : Doc → Prop
  /-- The documents of the host, which stay closed. -/
  own : Doc → Prop

/-- Documents of the host that are bound to break **if they hold anything back**. -/
def Vocabulary.IsCandid (V : Vocabulary) : Prop :=
  ∀ doc, V.own doc → doc.willBreak = false → doc.suffixDepth = 0

namespace Doc

/-- A **content of a fill**: nothing, a word, or the document of a child. -/
def IsContent (child : Doc → Prop) (doc : Doc) : Prop :=
  doc = text "" ∨ (∃ word, IsWord word.toList ∧ doc = text word) ∨ child doc

/-- A **separator of a fill**: a line, the space that matters or the same spelled out, with or
without a line break.  In localized text nothing may separate two contents as well. -/
def IsSeparator (style : SpaceStyle) (localized : Bool) (doc : Doc) : Prop :=
  (∃ kind, doc = line kind) ∨ doc = style.doc ∨ doc = text style.spelled ∨
    doc = text style.spelled ++ line .hard ∨ localized = true ∧ doc = text ""

/-- Parts of a fill: **contents and separators in turn**, the first and the last one a content. -/
structure Fills (child : Doc → Prop) (style : SpaceStyle) (localized : Bool) (parts : List Doc) :
    Prop where
  alternating : Alternating (IsContent child) (IsSeparator style localized) parts
  odd : parts.length % 2 = 1

/-- A document **as printing builds it**. -/
inductive Regular (V : Vocabulary) : Doc → Prop
  | own {doc : Doc} (h : V.own doc) : Regular V doc
  | written {s : String} (h : V.written s) : Regular V (text s)
  /-- The string of an attribute, in other quotes. -/
  | string (quote : Quote) {s : String} (h : V.written s) :
      Regular V (text (AttributeString.normalize quote s))
  /-- A word, a space or a mark of the printer's. -/
  | mark {s : String} (h : '\n' ∉ s.toList) : Regular V (text s)
  | line (kind : LineKind) : Regular V (line kind)
  | suffixBoundary : Regular V suffixBoundary
  | concat {docs : List Doc} (h : ∀ doc ∈ docs, Regular V doc) : Regular V (concat docs)
  | append {a b : Doc} (ha : Regular V a) (hb : Regular V b) : Regular V (a ++ b)
  | indent {doc : Doc} (h : Regular V doc) : Regular V (indent doc)
  | group (shouldBreak : Bool) {doc : Doc} (h : Regular V doc) : Regular V (group shouldBreak doc)
  | ifBreak {broken flat : Doc} (hb : Regular V broken) (hf : Regular V flat)
      (keeps : (ifBreak broken flat).keepsLine = true) : Regular V (ifBreak broken flat)
  | lineSuffix {doc : Doc} (plain : doc.suffixDepth = 0) (h : Regular V doc) :
      Regular V (lineSuffix doc)
  /-- Localized text is what stands between the tags named `fbt`. -/
  | fill {style : SpaceStyle} {localized : Bool} {parts : List Doc} (known : V.style style)
      (tag : localized = true → V.written "fbt") (shape : Fills V.child style localized parts)
      (h : ∀ part ∈ parts, Regular V part) : Regular V (fill parts)
  /-- Of variants that hold something back, all but the last are bound to break. -/
  | conditional {variants : List Doc} (several : variants.length ≠ 1)
      (back : V.IsCandid → (∀ variant ∈ variants, variant.suffixDepth = 0) ∨
        ∀ variant ∈ variants.dropLast, variant.willBreak = true)
      (h : ∀ variant ∈ variants, Regular V variant) : Regular V (conditional variants)

/-- Documents that are **all regular**. -/
def AllRegular (V : Vocabulary) (docs : List Doc) : Prop := ∀ doc ∈ docs, doc.Regular V

variable {V : Vocabulary} {doc : Doc} {docs docs' : List Doc}

namespace AllRegular

theorem nil : AllRegular V [] := nofun

theorem cons (h : doc.Regular V) (hs : AllRegular V docs) : AllRegular V (doc :: docs) :=
  List.forall_mem_cons.mpr ⟨h, hs⟩

theorem append (h : AllRegular V docs) (h' : AllRegular V docs') : AllRegular V (docs ++ docs') :=
  List.forall_mem_append.mpr ⟨h, h'⟩

theorem intersperse {between : Doc} (hbetween : between.Regular V) (h : AllRegular V docs) :
    AllRegular V (docs.intersperse between) := by
  induction docs with
  | nil => exact .nil
  | cons doc docs ih =>
    obtain ⟨hdoc, hdocs⟩ := List.forall_mem_cons.mp h
    cases docs with
    | nil => exact .cons hdoc .nil
    | cons next docs =>
      rw [List.intersperse_cons_cons]
      exact .cons hdoc (.cons hbetween (ih hdocs))

end AllRegular

theorem Regular.nil : Doc.nil.Regular V := .concat AllRegular.nil

/-- A regular document that is not bound to break **holds nothing back**. -/
theorem Regular.suffixDepth_eq_zero (h : doc.Regular V) (hcandid : V.IsCandid)
    (hbreak : doc.willBreak = false) : doc.suffixDepth = 0 := by
  have hall {docs : List Doc} (h : ∀ doc ∈ docs, doc.willBreak = false → doc.suffixDepth = 0)
      (hbreak : anyWillBreak docs = false) : maxSuffixDepth docs = 0 := by
    rw [anyWillBreak_eq_any, List.any_eq_false] at hbreak
    exact (maxSuffixDepth_eq_zero_iff _).mpr fun doc hdoc =>
      h doc hdoc (Bool.eq_false_iff.mpr (hbreak doc hdoc))
  induction h with
  | own h => exact hcandid _ h hbreak
  | written | string | mark | line | suffixBoundary => rfl
  | concat _ ih => exact hall ih hbreak
  | append _ _ iha ihb =>
    rw [willBreak_append, Bool.or_eq_false_iff] at hbreak
    exact suffixDepth_append_eq_zero (iha hbreak.1) (ihb hbreak.2)
  | indent _ ih => exact ih hbreak
  | group _ _ ih => exact ih (Bool.or_eq_false_iff.mp hbreak).2
  | ifBreak _ _ _ ihb ihf =>
    obtain ⟨hbroken, hflat⟩ := Bool.or_eq_false_iff.mp hbreak
    exact Nat.max_eq_zero_iff.mpr ⟨ihb hbroken, ihf hflat⟩
  | lineSuffix => cases hbreak
  | fill _ _ _ _ ih => exact hall ih hbreak
  | @conditional variants several back _ _ =>
    refine (maxSuffixDepth_eq_zero_iff _).mpr ?_
    obtain hnone | hbound := back hcandid
    · exact hnone
    · match variants with
      | [] => exact nofun
      | [_] => exact absurd rfl several
      | first :: next :: others =>
        have hfirst : first.willBreak = true := hbound first (by simp)
        rw [willBreak, firstWillBreak, hfirst] at hbreak
        cases hbreak

/-- Of a regular document **nothing that is held back gets lost**, if that is so of what
comes from the host. -/
theorem Regular.lossless (h : doc.Regular V) (hown : ∀ doc, V.own doc → doc.Lossless) :
    doc.Lossless := by
  have hcandid : V.IsCandid := fun doc hdoc => (hown doc hdoc).suffixDepth_eq_zero
  induction h with
  | own h => exact hown _ h
  | written | string | mark => exact .text _
  | line kind => exact .line kind
  | suffixBoundary => exact .suffixBoundary
  | concat _ ih => exact .concat ih
  | append _ _ iha ihb => exact iha.append ihb
  | indent _ ih => exact .indent ih
  | group _ _ ih => exact .group _ ih
  | ifBreak _ _ keeps ihb ihf => exact .ifBreak ihb ihf (.inr keeps)
  | lineSuffix plain => exact .lineSuffix plain
  | fill _ _ _ _ ih => exact .fill ih
  | conditional _ back _ ih => exact .conditional ih (back hcandid)

end Doc

open Doc (AllRegular)

variable {V : Vocabulary} {o : LanguageOptions} {doc name value inside : Doc}

/-! ## Comments -/

namespace Comment

variable {comments : List Comment}

theorem regular_around (h : ∀ s ∈ comments.map raw, V.written s) (hdoc : doc.Regular V) :
    (around comments doc).Regular V := by
  rw [List.forall_mem_map] at h
  have hleading : AllRegular V ((comments.filter isLeading).flatMap leadingDocs) := by
    refine List.forall_mem_flatMap.mpr fun c hc =>
      AllRegular.cons (.written (h c (List.mem_filter.mp hc).1)) ?_
    split_ifs
    · exact .cons (.line .hard) .nil
    · exact .cons (.mark (by decide)) .nil
  have htrailing : AllRegular V ((comments.filter isTrailing).map trailingDoc) := by
    refine List.forall_mem_map.mpr fun c hc => ?_
    have hprinted : (Doc.text " " ++ Doc.text c.raw).Regular V :=
      .append (.mark (by decide)) (.written (h c (List.mem_filter.mp hc).1))
    rw [trailingDoc]
    split_ifs
    · exact .lineSuffix rfl hprinted
    · exact hprinted
  rw [around]
  split_ifs
  · exact hdoc
  · exact .concat ((hleading.append (.cons hdoc .nil)).append htrailing)

theorem regular_dangling (h : ∀ s ∈ comments.map raw, V.written s) (sameIndent : Bool) :
    (dangling comments sameIndent).Regular V := by
  rw [List.forall_mem_map] at h
  have hdocs : AllRegular V ((comments.filter isDangling).map fun c => Doc.text c.raw) :=
    List.forall_mem_map.mpr fun c hc => .written (h c (List.mem_filter.mp hc).1)
  have hjoined := Doc.Regular.concat (hdocs.intersperse (.line .hard))
  rw [dangling.eq_def]
  split
  · exact .nil
  · dsimp only
    split_ifs
    · exact hjoined
    · exact .indent (.append (.line .hard) hjoined)

end Comment

/-! ## Tags, braces and parentheses -/

namespace Tag

theorem regular_closing (h : name.Regular V) : (closing name).Regular V :=
  .concat (AllRegular.cons (.mark (by decide)) (.cons h (.cons (.mark (by decide)) .nil)))

theorem regular_valued (hname : name.Regular V) (hvalue : value.Regular V) :
    (valued name value).Regular V :=
  .concat (AllRegular.cons hname (.cons (.mark (by decide)) (.cons hvalue .nil)))

/-- The tag of a fragment starts with **a mark on one line**. -/
theorem regular_fragment {start : String} (hstart : '\n' ∉ start.toList) (spaced : Bool)
    (comments : List Comment) (h : inside.Regular V) :
    (fragment start spaced comments inside).Regular V := by
  have hbefore : (if comments.any Comment.isLine then Doc.line .hard
      else if spaced && comments.any Comment.isDangling then .text " " else .nil).Regular V := by
    split_ifs
    · exact .line .hard
    · exact .mark (by decide)
    · exact .nil
  have hafter : (if comments.any Comment.isLine then Doc.line .hard else .nil).Regular V := by
    split_ifs
    · exact .line .hard
    · exact .nil
  have hindent : (Doc.indent (.concat [_, inside])).Regular V :=
    .indent (.concat (AllRegular.cons hbefore (.cons h .nil)))
  exact .concat (AllRegular.cons (.mark hstart)
    (.cons hindent (.cons hafter (.cons (.mark (by decide)) .nil))))

end Tag

namespace OpeningTag

variable {tag : OpeningTag} {typeArguments : Doc} {attributes : List Doc}

theorem regular_spread (hname : name.Regular V) (harguments : typeArguments.Regular V)
    (hattributes : AllRegular V attributes) :
    (tag.spread o name typeArguments attributes).Regular V := by
  have hlines : AllRegular V (attributes.flatMap fun doc => [.line .orSpace, doc]) :=
    List.forall_mem_flatMap.mpr fun doc hdoc =>
      AllRegular.cons (.line .orSpace) (.cons (hattributes doc hdoc) .nil)
  have hbracket : AllRegular V (if tag.bracketSameLine o then [] else [Doc.line .orNil]) := by
    split_ifs
    · exact .nil
    · exact .cons (.line .orNil) .nil
  have hend : (Doc.text (if tag.selfClosing then "/>" else ">")).Regular V := by
    split_ifs <;> exact .mark (by decide)
  have hstart := AllRegular.cons (.mark (s := "<") (by decide))
    (.cons hname (.cons harguments (.cons (.indent (.concat hlines)) .nil)))
  exact .group _ (.concat ((hstart.append hbracket).append (.cons hend .nil)))

/-- An opening tag, in **each of its layouts**. -/
theorem regular_doc (hname : name.Regular V) (harguments : typeArguments.Regular V)
    (hattributes : AllRegular V attributes) :
    (tag.doc o name typeArguments attributes).Regular V := by
  have hspread := @regular_spread V o name tag typeArguments attributes hname harguments hattributes
  have hend : (Doc.text (tag.endOnLine o)).Regular V := by
    rw [endOnLine]
    split_ifs <;> exact .mark (by decide)
  rw [OpeningTag.doc.eq_def]
  split
  · split_ifs
    · exact .concat (AllRegular.cons (.mark (by decide))
        (.cons hname (.cons harguments (.cons hend .nil))))
    · exact hspread
  · split_ifs
    · exact .group _ (.concat (AllRegular.cons (.mark (by decide)) (.cons hname (.cons harguments
        (.cons (.mark (by decide)) (.cons (hattributes _ List.mem_cons_self) (.cons hend .nil)))))))
    · exact hspread
  · exact hspread

end OpeningTag

namespace Brace

theorem regular_spread (h : inside.Regular V) : (spread inside).Regular V :=
  .concat (AllRegular.cons (.mark (by decide)) (.cons h (.cons (.mark (by decide)) .nil)))

theorem regular_commented (h : inside.Regular V) : (commented inside).Regular V :=
  .concat (AllRegular.cons (.indent (.append (.line .orNil) h)) (.cons (.line .orNil) .nil))

theorem regular_onlyComments (ownLines : Bool) (h : inside.Regular V) :
    (onlyComments ownLines inside).Regular V := by
  rw [onlyComments]
  split_ifs
  · exact .append h (.line .hard)
  · exact h

end Brace

theorem Container.regular_braces (container : Container) (ancestors : Ancestors)
    (h : inside.Regular V) : (container.braces ancestors inside).Regular V := by
  have hclose : AllRegular V [.suffixBoundary, .text "\x7d"] :=
    .cons .suffixBoundary (.cons (.mark (by decide)) .nil)
  rw [braces]
  split_ifs
  · exact .group _ (.concat (AllRegular.cons (.mark (by decide)) (.cons h hclose)))
  · exact .group _ (.concat (AllRegular.cons (.mark (by decide))
      (.cons (.indent (.append (.line .orNil) h)) (.cons (.line .orNil) hclose))))

theorem Parens.regular_around (alreadyThere shouldBreak : Bool) (h : doc.Regular V) :
    (around alreadyThere shouldBreak doc).Regular V := by
  have hparen {s : String} (hs : '\n' ∉ s.toList) :
      (if alreadyThere then Doc.nil else .flatOrBroken .nil (.text s)).Regular V := by
    split_ifs
    · exact .nil
    · exact .ifBreak (.mark hs) .nil rfl
  exact .group _ (.concat (AllRegular.cons (hparen (by decide))
    (.cons (.indent (.append (.line .orNil) h)) (.cons (.line .orNil)
      (.cons (hparen (by decide)) .nil)))))

/-! ## Children -/

/-- A child whose document is **regular and known** as that of a child. -/
def Child.IsRegular (V : Vocabulary) (child : Child) : Prop :=
  ∀ kind doc, child = .printed kind doc → doc.Regular V ∧ V.child doc

/-- In every style a space is printed **as a regular document**. -/
theorem SpaceStyle.regular_of (o : LanguageOptions) (isEmbedded : Bool) :
    (SpaceStyle.of o isEmbedded).doc.Regular V ∧
      '\n' ∉ (SpaceStyle.of o isEmbedded).spelled.toList := by
  cases isEmbedded with
  | true =>
    have hplain : '\n' ∉ SpaceStyle.embedded.spelled.toList := by decide
    exact ⟨.mark hplain, hplain⟩
  | false =>
    have hspelled : '\n' ∉ (SpaceStyle.inMarkup o).spelled.toList := by
      rw [toList_spelled]
      cases o.quotes <;> decide
    exact ⟨.ifBreak (.append (.mark hspelled) (.line .orNil)) (.mark (by decide)) rfl, hspelled⟩

namespace Part

variable {parts : List Part} {style : SpaceStyle} {localized : Bool}

/-- A part that is laid out, with a word or a known document **if it is a content**. -/
def IsRegular (V : Vocabulary) (part : Part) : Prop :=
  (∀ word, part = .word word → IsWord word.toList) ∧
    ∀ doc, part = .printed doc → doc.Regular V ∧ V.child doc

theorem isRegular_of_mem_arrange {children : List Child} (h : ∀ child ∈ children, child.IsRegular V)
    {part : Part}
    (hpart : part ∈ arrange localized (children.any Child.isMeaningfulText) children) :
    part.IsRegular V := by
  refine ⟨?_, ?_⟩
  · rintro word rfl
    exact isWord_of_mem_arrange hpart
  · rintro doc rfl
    obtain ⟨kind, hchild⟩ := exists_printed_of_mem_arrange hpart
    exact h _ hchild kind doc rfl

theorem regular_doc (hspace : style.doc.Regular V) {part : Part} (h : part.IsRegular V) :
    (part.doc style.doc).Regular V := by
  cases part with
  | empty => exact .mark (by decide)
  | word s => exact .mark fun hbreak => by simpa [Text.isBlank] using (h.1 s rfl).2 _ hbreak
  | space => exact hspace
  | line kind => exact .line kind
  | printed doc => exact (h.2 doc rfl).1

/-- A space **on lines of its own** is the space itself, or spelled out. -/
theorem multilineDoc_space_cases (beforeThat before : Option Part) (isLast : Bool) :
    (multilineDoc style beforeThat before .space isLast).1 = style.doc ∨
      (multilineDoc style beforeThat before .space isLast).1 = .text style.spelled ∨
      (multilineDoc style beforeThat before .space isLast).1 =
        Doc.text style.spelled ++ Doc.line .hard := by
  rw [multilineDoc]
  split
  · next doc hdoc => exact .inr (spelledSpace_cases hdoc)
  · exact .inl rfl

/-- A space may be spelled out there, on a line of its own, so it **must not have a line break**. -/
theorem regular_multilineDoc (hspace : style.doc.Regular V) (hspelled : '\n' ∉ style.spelled.toList)
    {part : Part} (h : part.IsRegular V) (beforeThat before : Option Part) (isLast : Bool) :
    (multilineDoc style beforeThat before part isLast).1.Regular V := by
  by_cases hpart : part = .space
  · subst hpart
    obtain heq | heq | heq := @multilineDoc_space_cases style beforeThat before isLast
    · exact heq ▸ hspace
    · exact heq ▸ .mark hspelled
    · exact heq ▸ .append (.mark hspelled) (.line .hard)
  · rw [multilineDoc_fst hpart]
    exact regular_doc hspace h

/-- On lines of its own a content is **a content of a fill**. -/
theorem isContent_multilineDoc {part : Part} (hcontent : part.IsContent) (h : part.IsRegular V)
    (beforeThat before : Option Part) (isLast : Bool) :
    Doc.IsContent V.child (multilineDoc style beforeThat before part isLast).1 := by
  obtain rfl | hfilled := hcontent
  · exact .inl rfl
  · cases part with
    | word s => exact .inr (.inl ⟨s, h.1 s rfl, rfl⟩)
    | printed doc => exact .inr (.inr (h.2 doc rfl).2)
    | empty | space | line => cases hfilled

/-- And a separator is **a separator**. -/
theorem isSeparator_multilineDoc {part : Part} (hseparator : part.IsSeparator localized)
    (beforeThat before : Option Part) (isLast : Bool) :
    Doc.IsSeparator style localized (multilineDoc style beforeThat before part isLast).1 := by
  obtain rfl | ⟨kind, rfl⟩ | ⟨hlocalized, rfl⟩ := hseparator
  · obtain heq | heq | heq := @multilineDoc_space_cases style beforeThat before isLast
    · exact .inr (.inl heq)
    · exact .inr (.inr (.inl heq))
    · exact .inr (.inr (.inr (.inl heq)))
  · exact .inl ⟨kind, rfl⟩
  · exact .inr (.inr (.inr (.inr ⟨hlocalized, rfl⟩)))

/-- Set out on lines, contents and separators **keep their places**. -/
theorem alternating_multilineDocs {P Q : Part → Prop} {P' Q' : Doc → Prop}
    (h : Alternating P Q parts) (hP : ∀ part ∈ parts, P part → ∀ beforeThat before isLast,
      P' (multilineDoc style beforeThat before part isLast).1)
    (hQ : ∀ part ∈ parts, Q part → ∀ beforeThat before isLast,
      Q' (multilineDoc style beforeThat before part isLast).1) (beforeThat before : Option Part) :
    Alternating P' Q' ((multilineDocsAfter style beforeThat before parts).map Prod.fst) := by
  induction parts generalizing P Q P' Q' beforeThat before with
  | nil => trivial
  | cons part parts ih =>
    exact ⟨hP part List.mem_cons_self h.1 _ _ _,
      ih h.2 (fun other hother => hQ other (List.mem_cons_of_mem part hother))
        (fun other hother => hP other (List.mem_cons_of_mem part hother)) _ _⟩

theorem allRegular_multilineDocs (hspace : style.doc.Regular V)
    (hspelled : '\n' ∉ style.spelled.toList) (h : ∀ part ∈ parts, part.IsRegular V)
    (beforeThat before : Option Part) :
    AllRegular V ((multilineDocsAfter style beforeThat before parts).map Prod.fst) := by
  induction parts generalizing beforeThat before with
  | nil => exact .nil
  | cons part parts ih =>
    obtain ⟨hpart, hparts⟩ := List.forall_mem_cons.mp h
    exact .cons (regular_multilineDoc hspace hspelled hpart _ _ _) (ih hparts _ _)

end Part

/-- Documents in turn, **padded to an odd number**, are the parts of a fill. -/
theorem Doc.exists_filled_eq {child : Doc → Prop} {style : SpaceStyle} {localized : Bool}
    {docs : List Doc} (h : Alternating (IsContent child) (IsSeparator style localized) docs)
    (hne : docs ≠ []) : ∃ parts, filled docs = fill parts ∧ Fills child style localized parts ∧
      (parts = docs ∨ parts = docs ++ [text ""]) := by
  rw [filled]
  split_ifs with heven
  · rw [Bool.and_eq_true, decide_eq_true_eq] at heven
    refine ⟨_, rfl, ⟨h.append heven.1 ⟨.inl rfl, trivial⟩, ?_⟩, .inr rfl⟩
    rw [List.length_append, List.length_singleton]
    omega
  · refine ⟨docs, rfl, ⟨h, ?_⟩, .inl rfl⟩
    have hodd : ¬ docs.length % 2 = 0 := by simpa [hne] using heven
    omega

/-! ## Shells -/

namespace Shell

variable {shell : Shell} {children : List Child}

theorem regular_content {isEmbedded : Bool} (hstyle : V.style (SpaceStyle.of o isEmbedded))
    (htag : shell.isLocalized = true → V.written "fbt")
    (h : ∀ child ∈ children, child.IsRegular V) :
    let hasText := children.any Child.isMeaningfulText
    (content hasText (Part.multilineDocs (SpaceStyle.of o isEmbedded)
      (Part.arrange shell.isLocalized hasText children))).Regular V := by
  intro hasText
  set parts := Part.arrange shell.isLocalized hasText children
  obtain ⟨hspace, hspelled⟩ := @SpaceStyle.regular_of V o isEmbedded
  have hparts : ∀ part ∈ parts, part.IsRegular V := fun part => Part.isRegular_of_mem_arrange h
  have hdocs := Part.allRegular_multilineDocs hspace hspelled hparts none none
  rw [content.eq_def]
  dsimp only
  split_ifs with htext
  · have hne : (Part.multilineDocs (SpaceStyle.of o isEmbedded) parts).map Prod.fst ≠ [] := by
      have hsome : parts ≠ [] := Part.arrange_ne_nil shell.isLocalized htext
      obtain ⟨first, rest, heq⟩ := List.exists_cons_of_ne_nil hsome
      rw [heq]
      exact List.cons_ne_nil _ _
    obtain ⟨filling, hfilled, hshape, heq⟩ := Doc.exists_filled_eq (Part.alternating_multilineDocs
      (Part.alternating_arrange shell.isLocalized hasText children)
      (fun part hpart hcontent => Part.isContent_multilineDoc hcontent (hparts part hpart))
      (fun part _ hseparator => Part.isSeparator_multilineDoc hseparator) none none) hne
    refine hfilled ▸ .fill hstyle htag hshape ?_
    obtain rfl | rfl := heq
    · exact hdocs
    · exact hdocs.append (.cons (.mark (by decide)) .nil)
  · exact .group true (.concat hdocs)

/-- A shell **around regular children**. -/
theorem regular_around {isEmbedded : Bool} (hstyle : V.style (SpaceStyle.of o isEmbedded))
    (htag : shell.isLocalized = true → V.written "fbt") (hopening : shell.opening.Regular V)
    (hclosing : shell.closingDoc.Regular V) (h : ∀ child ∈ children, child.IsRegular V) :
    (shell.around o isEmbedded children).Regular V := by
  have hcontent := regular_content hstyle htag h
  have hmulti := Doc.Regular.group false (.concat (AllRegular.cons hopening
    (.cons (.indent (.append (.line .hard) hcontent)) (.cons (.line .hard) (.cons hclosing .nil)))))
  have hflat : (Part.flatDoc (SpaceStyle.of o isEmbedded)
      (Part.arrange shell.isLocalized (children.any Child.isMeaningfulText) children)).Regular V :=
    .concat (List.forall_mem_map.mpr fun part hpart =>
      Part.regular_doc (SpaceStyle.regular_of o isEmbedded).1
        (Part.isRegular_of_mem_arrange h hpart))
  have honeLine := Doc.Regular.group false (.concat (AllRegular.cons hopening
    (.cons hflat (.cons hclosing .nil))))
  rw [around]
  split_ifs with hembedded
  · exact hcontent
  · exact hmulti
  · obtain rfl := Bool.eq_false_iff.mpr hembedded
    refine .conditional (by simp) (fun hcandid => ?_) (AllRegular.cons honeLine (.cons hmulti .nil))
    cases hbreak : (shell.onOneLine (Part.flatDoc (SpaceStyle.of o false) (Part.arrange
      shell.isLocalized (children.any Child.isMeaningfulText) children))).willBreak with
    | true => exact .inr (List.forall_mem_singleton.mpr hbreak)
    | false =>
      have hnone := honeLine.suffixDepth_eq_zero hcandid hbreak
      exact .inl (List.forall_mem_cons.mpr ⟨hnone,
        List.forall_mem_singleton.mpr (Shell.suffixDepth_variants _ hnone)⟩)

theorem regular_doc {isEmbedded : Bool} (hstyle : V.style (SpaceStyle.of o isEmbedded))
    (htag : shell.isLocalized = true → V.written "fbt") (hopening : shell.opening.Regular V)
    (hclosing : shell.closingDoc.Regular V) (h : ∀ child ∈ children, child.IsRegular V) :
    (shell.doc o isEmbedded children).Regular V := by
  rw [doc.eq_def]
  split_ifs
  · rw [empty]
    rw [closingDoc] at hclosing
    cases hclosed : shell.closing with
    | none => exact hopening
    | some closing =>
      rw [hclosed] at hclosing
      exact .append hopening hclosing
  · split
    · next template _ =>
      exact .concat (AllRegular.cons hopening
        (.cons (h _ List.mem_cons_self _ template rfl).1 (.cons hclosing .nil)))
    · exact regular_around hstyle htag hopening hclosing h

end Shell

end Reflow
