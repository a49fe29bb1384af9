import Reflow.Proofs.Doc.Stable
import Reflow.Proofs.Format.Failures
import Reflow.Proofs.Markup.Composing

/-!
# Proofs/Format/Stable — a single line is kept in more width

Whatever is printed for a node that is not embedded is stable: of an element it is tried whether it
fits on one line, and otherwise it takes several; parentheses show whether their group is broken;
and no other choice is made outside elements.  So a node that is formatted as one line is formatted
as the same line in every larger width (`Node.format_wider`).
-/

namespace Reflow

open Dialogue
open Doc (IsStable AlwaysBreaks)

variable {σ ε : Type} {host : Host σ ε} {o : LanguageOptions} {doc name value inside : Doc}

/-! ## Comments, tags and braces -/

namespace Comment

theorem isStable_around (comments : List Comment) (h : doc.IsStable true) :
    (around comments doc).IsStable true := by
  have hleading : ∀ other ∈ (comments.filter isLeading).flatMap leadingDocs,
      other.IsStable true := by
    refine List.forall_mem_flatMap.mpr fun c _ => List.forall_mem_cons.mpr ⟨.text _, ?_⟩
    split_ifs
    · exact List.forall_mem_singleton.mpr (.line .hard)
    · exact List.forall_mem_singleton.mpr (.text " ")
  have htrailing : ∀ other ∈ (comments.filter isTrailing).map trailingDoc, other.IsStable true := by
    refine List.forall_mem_map.mpr fun c _ => ?_
    rw [trailingDoc]
    split_ifs
    · exact .lineSuffix _
    · exact .append (.text " ") (.text c.raw)
  rw [around]
  split_ifs
  · exact h
  · exact .concat (List.forall_mem_append.mpr
      ⟨List.forall_mem_append.mpr ⟨hleading, List.forall_mem_singleton.mpr h⟩, htrailing⟩)

theorem isStable_dangling (comments : List Comment) (sameIndent : Bool) :
    (dangling comments sameIndent).IsStable true := by
  have htexts : ∀ doc ∈ (comments.filter isDangling).map fun c =>
      Doc.text c.raw, doc.IsStable true :=
    List.forall_mem_map.mpr fun c _ => .text c.raw
  have hjoined := IsStable.concat (forall_mem_intersperse (.line .hard) htexts)
  rw [dangling.eq_def]
  split
  · exact .nil
  · dsimp only
    split_ifs
    · exact hjoined
    · exact .indent (.append (.line .hard) hjoined)

end Comment

namespace Tag

theorem isStable_fragment (start : String) (spaced : Bool) (comments : List Comment)
    (h : inside.IsStable true) : (fragment start spaced comments inside).IsStable true := by
  have hbefore :
      (if comments.any Comment.isLine then Doc.line .hard
        else if spaced && comments.any Comment.isDangling then .text " "
        else .nil).IsStable true := by
    split_ifs
    · exact .line .hard
    · exact .text " "
    · exact .nil
  have hafter : (if comments.any Comment.isLine then Doc.line .hard else .nil).IsStable true := by
    split_ifs
    · exact .line .hard
    · exact .nil
  refine .concat (List.forall_mem_cons.mpr ⟨.text start, List.forall_mem_cons.mpr ⟨.indent ?_, ?_⟩⟩)
  · exact .concat (List.forall_mem_cons.mpr ⟨hbefore, List.forall_mem_singleton.mpr h⟩)
  · exact List.forall_mem_cons.mpr ⟨hafter, List.forall_mem_singleton.mpr (.text ">")⟩

end Tag

namespace OpeningTag

/-- The attributes stand behind lines of **one group**, so whether it is broken can be seen. -/
theorem isStable_doc (tag : OpeningTag) {typeArguments : Doc} {attributes : List Doc}
    (hname : name.IsStable true) (harguments : typeArguments.IsStable true)
    (hattributes : ∀ doc ∈ attributes, doc.IsStable true) :
    (tag.doc o name typeArguments attributes).IsStable true := by
  have hspread : (tag.spread o name typeArguments attributes).IsStable true := by
    have hlines : (Doc.indent
        (.concat (attributes.flatMap fun doc => [.line .orSpace, doc]))).IsStable true :=
      .indent (.concat (List.forall_mem_flatMap.mpr fun doc hdoc => by
        simp [hattributes doc hdoc, IsStable.line]))
    refine .group _ (.concat ?_)
    simp only [List.forall_mem_append, List.forall_mem_cons]
    refine ⟨⟨⟨.text "<", hname, harguments, hlines, by simp⟩, ?_⟩, .text _, by simp⟩
    split_ifs
    · simp
    · exact List.forall_mem_singleton.mpr (.line .orNil)
  rw [OpeningTag.doc.eq_def]
  split
  · split_ifs
    · exact .concat (by simp [hname, harguments, IsStable.text])
    · exact hspread
  · split_ifs
    · exact .group _ (.concat (by simp [hname, harguments, IsStable.text, hattributes]))
    · exact hspread
  · exact hspread

end OpeningTag

namespace Brace

theorem isStable_onlyComments (ownLines : Bool) (h : inside.IsStable true) :
    (onlyComments ownLines inside).IsStable true := by
  rw [onlyComments]
  split_ifs
  · exact h.append (.line .hard)
  · exact h

theorem isStable_hugging (h : inside.IsStable true) : (hugging inside).IsStable true :=
  .group false (.concat (by simp [h, IsStable.text, IsStable.suffixBoundary]))

theorem isStable_apart (h : inside.IsStable true) : (apart inside).IsStable true := by
  have hindent : (Doc.indent (Doc.line .orNil ++ inside)).IsStable true :=
    .indent (.append (.line .orNil) h)
  exact .group false (.concat (by
    simp [hindent, IsStable.text, IsStable.line, IsStable.suffixBoundary]))

theorem isStable_spread (h : inside.IsStable true) : (spread inside).IsStable true :=
  .concat (by simp [h, IsStable.text])

theorem isStable_commented (h : inside.IsStable true) : (commented inside).IsStable true := by
  have hindent : (Doc.indent (Doc.line .orNil ++ inside)).IsStable true :=
    .indent (.append (.line .orNil) h)
  exact .concat (by simp [hindent, IsStable.line])

end Brace

/-- Markup **in its parentheses**: these are there exactly if the lines beside them are broken. -/
theorem Parens.isStable_around (alreadyThere shouldBreak : Bool) (h : doc.IsStable true) :
    (around alreadyThere shouldBreak doc).IsStable true := by
  have hindent : (Doc.indent (Doc.line .orNil ++ doc)).IsStable true :=
    .indent (.append (.line .orNil) h)
  cases alreadyThere with
  | true => exact .group _ (.concat (by simp [hindent, IsStable.line, IsStable.nil]))
  | false =>
    have hparen (s : String) : (Doc.flatOrBroken .nil (.text s)).IsStable false := .ifBreak _ .nil
    have hline :
        Doc.line .orNil ∈ [Doc.flatOrBroken .nil (.text "("), .indent (Doc.line .orNil ++ doc),
      .line .orNil, .flatOrBroken .nil (.text ")")] := by simp
    exact .lined _ hline (by simp [hparen, hindent.inFlat, IsStable.line])

/-! ## Elements -/

namespace Shell

/-- A body on lines of its own has **a line in front of it** that cannot be undone. -/
theorem alwaysBreaks_multiline (shell : Shell) (content : Doc) :
    (shell.multiline content).AlwaysBreaks :=
  .group (.concat Doc.alwaysBreaks_hard (by simp)) false

/-- Children that have to break have one layout.  Otherwise one line is tried **before several**,
and these break for sure. -/
theorem isStable_doc (shell : Shell) {children : List Child}
    (hopening : shell.opening.IsStable true) (hclosing : ∀ doc ∈ shell.closing, doc.IsStable true)
    (hdocs : ∀ kind doc, .printed kind doc ∈ children → doc.IsStable true) :
    (shell.doc o false children).IsStable true := by
  have hclosingDoc : shell.closingDoc.IsStable true := by
    rw [closingDoc]
    cases hshell : shell.closing with
    | none => exact .nil
    | some closing => exact hclosing closing hshell
  have haround : (shell.around o false children).IsStable true := by
    rw [around]
    simp only [Bool.false_eq_true, if_false]
    split_ifs
    · exact .multiline false (.concat Doc.alwaysBreaks_hard (by simp))
    · exact .conditional _ (shell.alwaysBreaks_multiline _)
  rw [doc.eq_def]
  split_ifs
  · rw [empty]
    split
    · next closing hshell => exact hopening.append (hclosing closing hshell)
    · exact hopening
  · split
    · have htemplate := hdocs _ _ List.mem_cons_self
      exact .concat (by simp [hopening, htemplate, hclosingDoc])
    · exact haround

end Shell

/-! ## Nodes -/

/-- Nothing is asked of the tree or of the answers about parentheses. -/
def Conditions.none : Conditions := ⟨fun _ => True, fun _ => True, fun _ => True⟩

/-- Stability is kept by **all ways of putting documents together**, parentheses included. -/
theorem Conditions.keep_isStable (o : LanguageOptions) :
    Conditions.none.Keep o (IsStable true) (IsStable true) where
  text _ := .text _
  string _ _ _ := .text _
  around _ _ h := Comment.isStable_around _ h
  bare h := .concat (List.forall_mem_singleton.mpr h)
  valued hname hvalue := .concat (by simp [hname, hvalue, IsStable.text])
  closing hname := .concat (by simp [hname, IsStable.text])
  opening tag _ _ _ hname harguments hattributes :=
    OpeningTag.isStable_doc tag hname (harguments.elim (fun h => h ▸ .nil) id) hattributes
  openingFragment _ _ := Tag.isStable_fragment _ _ _ (Comment.isStable_dangling _ true)
  closingFragment _ _ := Tag.isStable_fragment _ _ _ (Comment.isStable_dangling _ true)
  lone _ _ := Brace.isStable_onlyComments _ (Comment.isStable_dangling _ _)
  emptyBraces _ :=
    Brace.isStable_hugging (Brace.isStable_onlyComments _ (Comment.isStable_dangling _ _))
  hugging h := Brace.isStable_hugging h
  apart h := Brace.isStable_apart h
  weaken h := h
  parens _ shouldBreak _ h := Parens.isStable_around _ shouldBreak h
  commented _ _ _ h := h
  spread h := Brace.isStable_spread (.append (.text "...") h)
  spreadCommented _ _ h := Brace.isStable_spread (Brace.isStable_commented
    (Comment.isStable_around _ (.append (.text "...") h)))
  body _ hopening hclosing _ hdocs := Shell.isStable_doc _ hopening hclosing hdocs

namespace Node

/-- **A single line is kept in more width.**  A node that is not embedded and that is formatted
without a line break is formatted the same in every larger width, whatever the host answers about
parentheses and the comments of expressions. -/
theorem format_wider (hhost : host.PrintsVerbatim) (node : Node) {position : Position}
    (hwhole : position.isEmbedded = false) (o : Options) {width width' : Nat}
    (hle : width ≤ width') (s : σ) {output : String}
    (hformat : (node.format host position { o with layout.printWidth := width } s).1 = .ok output)
    (hline : '\n' ∉ output.toList) :
    (node.format host position { o with layout.printWidth := width' } s).1 = .ok output := by
  have hdocument : (node.printing position o.language).Always host (IsStable true) := by
    rw [printing, hwhole]
    have hallow : host.Allows Conditions.none position.ancestors := .inr fun _ => trivial
    exact (Node.always_keeps ⟨hhost, fun _ _ _ => trivial⟩ (Conditions.keep_isStable o.language)
      hallow node (fun _ _ => trivial) fun _ _ => trivial).imp fun _ hstable => hstable.1
  obtain ⟨hfailures, hstable⟩ := hdocument s
  exact format_of_print (print_of_failures hfailures)
    (hstable.typeset_wider o.layout hle (typeset_of_format hformat) hline)

/-- `<a {...x}>{y} b</a>` -/
def spreadAndText : Node :=
  markup (.element ⟨⟨"a", []⟩, none, [.spread (.foreign ⟨.other, "x", []⟩) []], false⟩
    (some ⟨"a", []⟩) [container (.filled (.foreign ⟨.other, "y", []⟩)), text " b"] [])

/-- In nineteen columns, behind `return`, and in more; in fewer it takes several lines. -/
theorem format_wider_spreadAndText :
    let position : Position := { ancestors := [.returnStatement] }
    let output := "<a {...x}>{y} b</a>"
    (position.isEmbedded = false ∧ 19 ≤ 80 ∧
      (spreadAndText.format Host.verbatim position { layout.printWidth := 19 } ()).1 = .ok output ∧
      '\n' ∉ output.toList) ∧
      (spreadAndText.format Host.verbatim position { layout.printWidth := 18 } ()).1 =
        .ok "(\n  <a {...x}>\n    {y} b\n  </a>\n)" ∧
      (spreadAndText.format Host.verbatim position { layout.printWidth := 80 } ()).1 = .ok output :=
  have hnarrow : (spreadAndText.format Host.verbatim { ancestors := [.returnStatement] }
      { layout.printWidth := 19 } ()).1 = .ok "<a {...x}>{y} b</a>" := rfl
  have hline : '\n' ∉ "<a {...x}>{y} b</a>".toList := by decide
  ⟨⟨rfl, by decide, hnarrow, hline⟩, rfl,
    format_wider Host.printsVerbatim_verbatim spreadAndText rfl {} (by decide) () hnarrow hline⟩

end Node

end Reflow
