import Mathlib.Algebra.Order.Group.Multiset
import Mathlib.Tactic.Abel
import Reflow.Markup.Document
import Reflow.Proofs.Doc.Carrying
import Reflow.Proofs.Markup.Outcome

/-!
# Proofs/Markup/Carrying — tags, braces and shells around answers

Whatever is put together from documents built around some answers is built around all of these: a
tag in each of its layouts, braces and parentheses, and a shell on one line or on lines of its own
(`Shell.carries_doc`).  Nothing is left out and nothing printed twice.
-/

namespace Reflow

open Doc (Carries AllCarry)

variable {o : LanguageOptions} {answers others rest : Multiset Answer}

/-! ## Tags, braces and parentheses -/

theorem Doc.Carries.congr {doc : Doc} (h : doc.Carries answers) (heq : answers = others) :
    doc.Carries others := heq ▸ h

theorem Doc.carries_nil : Doc.nil.Carries 0 := .nil

namespace Tag

variable {name value inside : Doc}

theorem carries_closing (h : name.Carries answers) : (closing name).Carries answers :=
  (AllCarry.cons_zero (.text _) (.cons h (.cons_zero (.text _) .nil))).concat.congr (add_zero _)

/-- A name and the value behind it, **both of them**. -/
theorem carries_valued (hname : name.Carries answers) (hvalue : value.Carries others) :
    (valued name value).Carries (answers + others) :=
  (AllCarry.cons hname (.cons_zero (.text _) (.cons hvalue .nil))).concat.congr
    (by rw [add_zero])

/-- The lines and the space beside the comments of a fragment's tag have **no answers in them**. -/
theorem carries_fragment (start : String) (spaced : Bool) (comments : List Comment)
    (h : inside.Carries answers) : (fragment start spaced comments inside).Carries answers := by
  have hbefore : (if comments.any Comment.isLine then Doc.line .hard
      else if spaced && comments.any Comment.isDangling then .text " " else .nil).Carries 0 := by
    split_ifs
    · exact .line .hard
    · exact .text " "
    · exact Doc.carries_nil
  have hafter : (if comments.any Comment.isLine then Doc.line .hard else .nil).Carries 0 := by
    split_ifs
    · exact .line .hard
    · exact Doc.carries_nil
  have hindent : (Doc.indent (.concat [_, inside])).Carries (answers + 0) :=
    (AllCarry.cons_zero hbefore (.cons h .nil)).concat.indent
  exact (AllCarry.cons_zero (.text start)
    (.cons hindent (.cons_zero hafter (.cons_zero (.text _) .nil)))).concat.congr (by simp)

end Tag

namespace OpeningTag

variable {tag : OpeningTag} {name typeArguments : Doc} {attributes : List Doc}

/-- The lines in front of attributes **add nothing** to what these carry. -/
theorem allCarry_attributes (h : AllCarry attributes answers) :
    AllCarry (attributes.flatMap fun doc => [.line .orSpace, doc]) answers := by
  induction h with
  | nil => exact .nil
  | cons h _ ih => exact .cons_zero (.line .orSpace) (.cons h ih)

/-- All of the attributes, in the group **behind the name**. -/
theorem carries_spread (hname : name.Carries answers) (harguments : typeArguments.Carries others)
    (hattributes : AllCarry attributes rest) :
    (tag.spread o name typeArguments attributes).Carries (answers + (others + rest)) := by
  have hbracket : AllCarry (if tag.bracketSameLine o then [] else [Doc.line .orNil]) 0 := by
    split_ifs
    · exact .nil
    · exact .cons_zero (.line .orNil) .nil
  have hend : AllCarry [.text (if tag.selfClosing then "/>" else ">")] 0 :=
    .cons_zero (.text _) .nil
  have hlines := (allCarry_attributes hattributes).concat.indent
  have hstart := AllCarry.cons_zero (.text "<") (.cons hname (.cons harguments (.cons hlines .nil)))
  exact ((hstart.append hbracket).append hend).concat.group _ |>.congr (by simp)

/-- An opening tag **carries what its parts do**, in each of its layouts. -/
theorem carries_doc (hlength : attributes.length = tag.attributes.length)
    (hname : name.Carries answers) (harguments : typeArguments.Carries others)
    (hattributes : AllCarry attributes rest) :
    (tag.doc o name typeArguments attributes).Carries (answers + (others + rest)) := by
  have hspread := @carries_spread o _ _ _ tag _ _ _ hname harguments hattributes
  rw [doc.eq_def]
  split
  · next hnone =>
    rw [hnone, List.length_nil, List.length_eq_zero_iff] at hlength
    subst hlength
    split_ifs
    · cases hattributes
      exact (AllCarry.cons_zero (.text "<")
        (.cons hname (.cons harguments (.cons_zero (.text _) .nil)))).concat
    · exact hspread
  · next only _ =>
    split_ifs
    · cases hattributes with
      | cons honly hnil =>
        cases hnil
        have hend := AllCarry.cons honly (.cons_zero (.text (tag.endOnLine o)) .nil)
        exact ((AllCarry.cons_zero (.text "<")
          (.cons hname (.cons harguments (.cons_zero (.text " ") hend)))).concat).group false
    · exact hspread
  · exact hspread

end OpeningTag

namespace Brace

variable {inside : Doc}

theorem carries_hugging (h : inside.Carries answers) : (hugging inside).Carries answers :=
  (AllCarry.cons_zero (.text _) (.cons h (.cons_zero .suffixBoundary
    (.cons_zero (.text _) .nil)))).concat.group false |>.congr (add_zero _)

theorem carries_apart (h : inside.Carries answers) : (apart inside).Carries answers :=
  (AllCarry.cons_zero (.text _) (.cons ((Carries.line .orNil).append h).indent
    (.cons_zero (.line .orNil) (.cons_zero .suffixBoundary
      (.cons_zero (.text _) .nil))))).concat.group false |>.congr (by simp)

theorem carries_spread (h : inside.Carries answers) : (spread inside).Carries answers :=
  (AllCarry.cons_zero (.text _) (.cons h (.cons_zero (.text _) .nil))).concat.congr (add_zero _)

theorem carries_commented (h : inside.Carries answers) : (commented inside).Carries answers :=
  (AllCarry.cons ((Carries.line .orNil).append h).indent
    (.cons_zero (.line .orNil) .nil)).concat.congr (by simp)

/-- Comments alone in braces, on lines of their own or not. -/
theorem carries_onlyComments (ownLines : Bool) (h : inside.Carries answers) :
    (onlyComments ownLines inside).Carries answers := by
  rw [onlyComments]
  split_ifs
  · exact (h.append (.line .hard)).congr (add_zero _)
  · exact h

end Brace

/-- Braces carry what is inside them **however they are laid out**, hugging it or apart. -/
theorem Container.carries_braces (container : Container) (ancestors : Ancestors) {inside : Doc}
    (h : inside.Carries answers) : (container.braces ancestors inside).Carries answers := by
  rw [Container.braces]
  split_ifs
  · exact Brace.carries_hugging h
  · exact Brace.carries_apart h

theorem Parens.carries_around (alreadyThere shouldBreak : Bool) {markup : Doc}
    (h : markup.Carries answers) : (around alreadyThere shouldBreak markup).Carries answers := by
  have hparen (s : String) :
      (if alreadyThere then Doc.nil else .flatOrBroken .nil (.text s)).Carries 0 := by
    split_ifs
    · exact Doc.carries_nil
    · exact .ifBreak (.text s) Doc.carries_nil
  exact (AllCarry.cons_zero (hparen "(") (.cons ((Carries.line .orNil).append h).indent
    (.cons_zero (.line .orNil) (.cons_zero (hparen ")") .nil)))).concat.group shouldBreak |>.congr
      (by simp)

/-! ## Children -/

/-- The **document of a content**. -/
def Content.doc : Content → Doc
  | word s => .text s
  | printed doc => doc

/-- The documents of children **carry these answers** between them, a word nothing. -/
def Child.AllCarry (children : List Child) (answers : Multiset Answer) : Prop :=
  Doc.AllCarry ((children.flatMap Child.contents).map Content.doc) answers

namespace Child

theorem allCarry_words (words : List String) :
    Doc.AllCarry ((words.map Content.word).map Content.doc) 0 := by
  induction words with
  | nil => exact .nil
  | cons word words ih => exact .cons_zero (.text word) ih

/-- A text has no answer in it, so its words carry **nothing more**. -/
theorem AllCarry.text {children : List Child} (raw : String) (h : AllCarry children answers) :
    AllCarry (text raw :: children) answers := by
  rw [AllCarry, List.flatMap_cons, List.map_append, ← zero_add answers]
  exact (allCarry_words _).append h

theorem AllCarry.printed {children : List Child} (kind : ChildKind) {doc : Doc}
    (hdoc : doc.Carries answers) (h : AllCarry children others) :
    AllCarry (printed kind doc :: children) (answers + others) :=
  .cons hdoc h

/-- Without content there are **no contents**. -/
theorem flatMap_contents_of_noContent {children : List Child} (h : noContent children = true) :
    children.flatMap contents = [] := by
  rw [noContent.eq_def] at h
  split at h
  · rfl
  · next raw =>
    obtain ⟨run, hof, -⟩ := (TextContent.isMeaningful_eq_false_iff raw).mp (by simpa using h)
    simp [contents, TextContent.words_eq_nil_of_ofText hof]
  · cases h

end Child

namespace Part

/-- A document that may **stand for a part**: that of its content, or one that carries nothing. -/
def StandsFor (part : Part) (doc : Doc) : Prop :=
  match part.content? with
  | some content => doc = content.doc
  | none => doc.Carries 0

variable {parts : List Part} {docs : List Doc} {style : SpaceStyle}

/-- Documents for all parts carry **what the contents do**. -/
theorem allCarry_of_standsFor (h : List.Forall₂ StandsFor parts docs)
    (hcontents : AllCarry ((parts.filterMap content?).map Content.doc) answers) :
    AllCarry docs answers := by
  induction h generalizing answers with
  | nil => exact hcontents
  | @cons part doc parts docs hpart _ ih =>
    rw [StandsFor] at hpart
    cases hcontent : part.content? with
    | none =>
      rw [hcontent] at hpart
      rw [List.filterMap_cons_none hcontent] at hcontents
      exact .cons_zero hpart (ih hcontents)
    | some content =>
      rw [hcontent] at hpart
      rw [List.filterMap_cons_some hcontent, List.map_cons, ← hpart] at hcontents
      cases hcontents with
      | cons hdoc hdocs => exact .cons hdoc (ih hdocs)

/-- On one line a content is **its own document**, and everything else is spaces and lines. -/
theorem standsFor_doc (hstyle : style.doc.Carries 0) (part : Part) :
    part.StandsFor (part.doc style.doc) := by
  cases part with
  | empty => exact .text ""
  | word s => rfl
  | space => exact hstyle
  | line kind => exact .line kind
  | printed doc => rfl

/-- On one line the contents are printed **in their order**, each one once. -/
theorem carries_flatDoc (hstyle : style.doc.Carries 0)
    (hcontents : AllCarry ((parts.filterMap content?).map Content.doc) answers) :
    (flatDoc style parts).Carries answers := by
  refine (allCarry_of_standsFor ?_ hcontents).concat
  rw [List.forall₂_map_right_iff]
  exact List.forall₂_same.mpr fun part _ => standsFor_doc hstyle part

/-- Set out on lines, a space is spelled out or left away by what is beside it, but **a content is
kept** wherever it stands. -/
theorem standsFor_multilineDoc (hstyle : style.doc.Carries 0) (beforeThat before : Option Part)
    (part : Part) (isLast : Bool) :
    part.StandsFor (multilineDoc style beforeThat before part isLast).1 := by
  by_cases hpart : part = .space
  · subst hpart
    rw [multilineDoc]
    split
    · next doc hdoc =>
      obtain rfl | rfl := spelledSpace_cases hdoc
      · exact .text _
      · exact ((Carries.text _).append (.line .hard)).congr (add_zero 0)
    · exact hstyle
  · rw [multilineDoc_fst hpart]
    exact standsFor_doc hstyle part

theorem standsFor_multilineDocs (hstyle : style.doc.Carries 0) (beforeThat before : Option Part)
    (parts : List Part) :
    List.Forall₂ StandsFor parts
      ((multilineDocsAfter style beforeThat before parts).map Prod.fst) := by
  induction parts generalizing beforeThat before with
  | nil => exact .nil
  | cons part parts ih =>
    exact .cons (standsFor_multilineDoc hstyle beforeThat before part parts.isEmpty)
      (ih before (some part))

end Part

/-! ## Shells -/

namespace Shell

variable {shell : Shell} {children : List Child}

/-- Whether as a fill or as a stack, what is set out on lines is **all of the lines**. -/
theorem carries_content (hasText : Bool) {lines : List (Doc × Bool)}
    (h : AllCarry (lines.map Prod.fst) answers) : (content hasText lines).Carries answers := by
  rw [content.eq_def]
  dsimp only
  split_ifs
  · rw [Doc.filled]
    split_ifs
    · have hempty : AllCarry [Doc.text ""] 0 := .cons_zero (.text "") .nil
      exact ((h.append hempty).concat.fill).congr (add_zero _)
    · exact h.concat.fill
  · exact h.concat.group true

theorem carries_closingDoc (h : AllCarry shell.closing.toList answers) :
    shell.closingDoc.Carries answers := by
  rw [closingDoc]
  cases hclosing : shell.closing with
  | none =>
    rw [hclosing] at h
    cases h
    exact Doc.carries_nil
  | some closing =>
    rw [hclosing] at h
    cases h with
    | cons h hnil =>
      cases hnil
      exact h.congr (add_zero _).symm

theorem carries_spaceStyle (o : LanguageOptions) (isEmbedded : Bool) :
    (SpaceStyle.of o isEmbedded).doc.Carries 0 := by
  rw [SpaceStyle.of]
  split_ifs
  · exact .text " "
  · exact .ifBreak (((Carries.text _).append (.line .orNil)).congr (add_zero 0)) (.text " ")

/-- A shell around its children **carries what they and the tags do**: in each of the two layouts,
and so in the choice between them. -/
theorem carries_around (hopening : shell.opening.Carries answers)
    (hclosing : AllCarry shell.closing.toList others) (hchildren : Child.AllCarry children rest) :
    (shell.around o false children).Carries (answers + (others + rest)) := by
  have hstyle := carries_spaceStyle o false
  have hclosingDoc := carries_closingDoc hclosing
  rw [around]
  simp only [Bool.false_eq_true, if_false]
  set hasText := children.any Child.isMeaningfulText
  set parts := Part.arrange shell.isLocalized hasText children with harrange
  have hcontents : AllCarry ((parts.filterMap Part.content?).map Content.doc) rest := by
    rw [harrange, Part.filterMap_content?_arrange]
    exact hchildren
  have hcontent := carries_content hasText (Part.allCarry_of_standsFor
    (Part.standsFor_multilineDocs hstyle none none parts) hcontents)
  have hmulti : (shell.multiline (content hasText (Part.multilineDocs (SpaceStyle.of o false)
      parts))).Carries (answers + (others + rest)) :=
    (AllCarry.cons hopening
      (.cons ((Carries.line .hard).append hcontent).indent
        (.cons_zero (.line .hard) (.cons hclosingDoc .nil)))).concat.group false |>.congr
          (by simp; abel)
  have hflat : (shell.onOneLine (Part.flatDoc (SpaceStyle.of o false) parts)).Carries
      (answers + (others + rest)) :=
    (AllCarry.cons hopening (.cons (Part.carries_flatDoc hstyle hcontents)
      (.cons hclosingDoc .nil))).concat.group false |>.congr (by simp; abel)
  split_ifs
  · exact hmulti
  · refine .conditional ?_ hflat.willBreak_eq_true
    rw [List.forall_mem_cons, List.forall_mem_singleton]
    exact ⟨hflat, hmulti⟩

/-- Without children there are **the two tags alone**. -/
theorem carries_empty (hopening : shell.opening.Carries answers)
    (hclosing : AllCarry shell.closing.toList others) : shell.empty.Carries (answers + others) := by
  rw [empty]
  cases h : shell.closing with
  | none =>
    rw [h] at hclosing
    cases hclosing
    exact hopening.congr (add_zero _).symm
  | some closing =>
    have hdoc := carries_closingDoc hclosing
    rw [closingDoc, h] at hdoc
    exact hopening.append hdoc

/-- A shell **carries what its tags and children do**. -/
theorem carries_doc (shell : Shell) (hopening : shell.opening.Carries answers)
    (hclosing : AllCarry shell.closing.toList others) (hchildren : Child.AllCarry children rest) :
    (shell.doc o false children).Carries (answers + (others + rest)) := by
  rw [doc.eq_def]
  split_ifs with hempty
  · have hnone := Child.flatMap_contents_of_noContent (Bool.and_eq_true_iff.mp hempty).2
    rw [Child.AllCarry, hnone] at hchildren
    cases hchildren
    rw [add_zero]
    exact carries_empty hopening hclosing
  · split
    · next template _ =>
      cases hchildren with
      | cons htemplate hnil =>
        cases hnil
        exact (AllCarry.cons hopening (.cons htemplate
          (.cons (carries_closingDoc hclosing) .nil))).concat.congr (by simp; abel)
    · exact carries_around hopening hclosing hchildren

end Shell

end Reflow
