import Reflow.Proofs.Format.Failures
import Reflow.Proofs.Markup.Composing
import Reflow.Proofs.Markup.Neat
import Reflow.Proofs.Markup.OneLine
import Reflow.Proofs.Markup.Plain

/-!
# Proofs/Format/Neat — no blanks at the ends of lines

What is written in a tree does not end with blanks, and what is printed around it puts blanks in
front of something only.  So everything that is printed leaves a clean edge, wherever it is set
(`Conditions.keep_isSolid`), and no line of a formatted element or fragment that is followed by a
line break ends with a space or a tab (`Markup.format_clean`).  The exceptions are places with
nothing in them: two lines in a row are an indented empty line there, as between the tags of a
fragment without children (`Markup.not_clean_emptyFragment`).
-/

namespace Reflow

open Dialogue
open Doc (Neat IsSolid)

variable {σ ε : Type} {host : Host σ ε} {o : LanguageOptions} {doc name value inside : Doc}

/-! ## Comments -/

namespace Comment

variable {comments : List Comment}

/-- All comments are **written without blanks** at their end. -/
def AllSolid (comments : List Comment) : Prop := ∀ c ∈ comments, Text.IsSolid c.raw

theorem neat_leading (h : AllSolid comments) (mode : Mode) :
    (Doc.concat (comments.flatMap leadingDocs)).Neat mode .ragged .ragged := by
  induction comments with
  | nil => exact .nil mode .ragged
  | cons c comments ih =>
    obtain ⟨hraw, hlater⟩ := List.forall_mem_cons.mp h
    refine .cons (IsSolid.text hraw mode) (.cons ?_ (ih hlater))
    split_ifs
    · exact .line mode .hard
    · exact .text mode .clean (by decide)

/-- Trailing comments leave an edge **as it is**, or clean. -/
theorem neat_trailing (h : AllSolid comments) (mode : Mode) (e : Edge) :
    (Doc.concat (comments.map trailingDoc)).Neat mode e e := by
  induction comments with
  | nil => exact .nil mode e
  | cons c comments ih =>
    obtain ⟨hraw, hlater⟩ := List.forall_mem_cons.mp h
    have hspace : (Doc.text " ").Neat mode e .ragged :=
      .weaken (Edge.le_refl _) (Edge.le_ragged _) (.text mode e (by decide))
    refine .cons ?_ (ih hlater)
    rw [trailingDoc]
    split_ifs
    · exact .lineSuffix mode e ⟨c.raw, hraw, rfl⟩
    · exact .weaken (Edge.le_refl _) (Edge.clean_le e) (hspace.append (IsSolid.text hraw mode))

theorem neat_around (h : AllSolid comments) {e : Edge} {mode : Mode}
    (hdoc : doc.Neat mode .ragged e) : (around comments doc).Neat mode .ragged e := by
  have hleading : AllSolid (comments.filter isLeading) :=
    fun c hc => h c (List.mem_of_mem_filter hc)
  have htrailing : AllSolid (comments.filter isTrailing) :=
    fun c hc => h c (List.mem_of_mem_filter hc)
  rw [around]
  split_ifs
  · exact hdoc
  · exact ((neat_leading hleading mode).concat_append hdoc.singleton).concat_append
      (neat_trailing htrailing mode e)

/-- Dangling comments, **if there are any**, leave a clean edge. -/
theorem isSolid_joined {docs : List Doc} (h : ∀ doc ∈ docs, doc.IsSolid) (hne : docs ≠ []) :
    (Doc.concat (docs.intersperse (.line .hard))).IsSolid := by
  intro mode
  induction docs with
  | nil => exact absurd rfl hne
  | cons doc docs ih =>
    obtain ⟨hdoc, hdocs⟩ := List.forall_mem_cons.mp h
    cases docs with
    | nil => exact (hdoc mode).singleton
    | cons next docs =>
      rw [List.intersperse_cons_cons]
      exact .cons (hdoc mode) (.cons (.line mode .hard) (ih hdocs (List.cons_ne_nil _ _)))

theorem dangling_of_none (h : comments.any isDangling = false) (sameIndent : Bool) :
    dangling comments sameIndent = .nil := by
  have hnone : comments.filter isDangling = [] :=
    List.filter_eq_nil_iff.mpr fun c hc => by simpa using List.any_eq_false.mp h c hc
  rw [dangling.eq_def, hnone]
  rfl

/-- Dangling comments at the same indentation leave a clean edge, and on lines of their own they
**need** one. -/
theorem neat_dangling (h : AllSolid comments) (hsome : comments.any isDangling = true)
    (mode : Mode) : (dangling comments true).Neat mode .ragged .clean ∧
      (dangling comments false).Neat mode .clean .clean := by
  have htexts : ∀ doc ∈ (comments.filter isDangling).map fun c => Doc.text c.raw, doc.IsSolid :=
    List.forall_mem_map.mpr fun c hc => .text (h c (List.mem_of_mem_filter hc))
  have hne : ((comments.filter isDangling).map fun c => Doc.text c.raw) ≠ [] := by
    obtain ⟨c, hc, hdangling⟩ := List.any_eq_true.mp hsome
    exact List.ne_nil_of_mem (List.mem_map_of_mem (List.mem_filter.mpr ⟨hc, hdangling⟩))
  have hjoined := isSolid_joined htexts hne
  obtain ⟨first, others, hdocs⟩ := List.exists_cons_of_ne_nil hne
  rw [hdocs] at hjoined
  rw [dangling.eq_def, dangling.eq_def, hdocs]
  exact ⟨hjoined mode, .indent (.append (.line mode .hard) (hjoined mode))⟩

end Comment

/-! ## Tags -/

/-- In other quotes a string **ends with a quote**. -/
theorem AttributeString.isSolid_normalize (preferred : Quote) {raw : String}
    (h : Text.IsSolid raw) : Text.IsSolid (normalize preferred raw) := by
  refine ⟨fun hempty => ?_, newline_not_mem_normalize preferred h.oneLine, ?_⟩
  · have hchars := congrArg String.toList hempty
    rw [normalize, String.toList_ofList, written] at hchars
    cases hchars
  · rw [normalize, String.toList_ofList, written, Text.endsBlank_append (List.cons_ne_nil _ _)]
    cases preferred.choose (value raw) <;> rfl

namespace Tag

theorem isSolid_fragment {start : String} (hstart : Text.IsSolid start) (spaced : Bool)
    {comments : List Comment} (h : Comment.AllSolid comments) {inParens : Bool}
    (hplace : (Place.fragmentTag comments).isTidy inParens = true) :
    (fragment start spaced comments (Comment.dangling comments true)).IsSolid := by
  intro mode
  have hends : (Doc.text ">").IsSolid := .text (by decide)
  -- a line in front of the bracket needs something in front of it
  have hinside : (Doc.concat [if comments.any Comment.isLine then .line .hard
      else if spaced && comments.any Comment.isDangling then .text " " else .nil,
      Comment.dangling comments true]).Neat mode .clean .clean := by
    cases hsome : comments.any Comment.isDangling with
    | true =>
      have hdangling := (Comment.neat_dangling h hsome mode).1
      refine .cons ?_ hdangling.singleton
      split_ifs
      · exact .line mode .hard
      · exact .text mode .clean (by decide)
      · exact .weaken (Edge.le_refl _) (Edge.le_ragged _) (.nil mode .clean)
    | false =>
      have hline : comments.any Comment.isLine = false := by
        simpa [Place.isTidy, hsome] using hplace
      rw [hline, Comment.dangling_of_none hsome, Bool.and_false, if_neg Bool.false_ne_true,
        if_neg Bool.false_ne_true]
      exact .cons (.nil mode .clean) (.singleton (.nil mode .clean))
  refine .cons (IsSolid.text hstart mode)
    (.cons (.indent hinside) (.cons ?_ (hends mode).singleton))
  split_ifs
  · exact .line mode .hard
  · exact .weaken (Edge.le_refl _) (Edge.le_ragged _) (.nil mode .clean)

end Tag

namespace OpeningTag

theorem isSolid_endOnLine (tag : OpeningTag) : Text.IsSolid (tag.endOnLine o) := by
  rw [endOnLine]
  split_ifs <;> decide

theorem neat_attributes {attributes : List Doc} (h : ∀ doc ∈ attributes, doc.IsSolid)
    (mode : Mode) :
    (Doc.concat (attributes.flatMap fun doc => [.line .orSpace, doc])).Neat mode .clean .clean := by
  induction attributes with
  | nil => exact .nil mode .clean
  | cons doc attributes ih =>
    obtain ⟨hdoc, hlater⟩ := List.forall_mem_cons.mp h
    exact .cons (.line mode .orSpace) (.cons (hdoc mode) (ih hlater))

theorem isSolid_doc (tag : OpeningTag) {typeArguments : Doc} {attributes : List Doc}
    (hname : name.IsSolid) (harguments : ∀ mode, typeArguments.Neat mode .clean .clean)
    (hattributes : ∀ doc ∈ attributes, doc.IsSolid) :
    (tag.doc o name typeArguments attributes).IsSolid := by
  have hstart : (Doc.text "<").IsSolid := .text (by decide)
  have hend : (Doc.text (tag.endOnLine o)).IsSolid := .text tag.isSolid_endOnLine
  have hfront (mode : Mode) {docs : List Doc} {e : Edge}
      (h : (Doc.concat docs).Neat mode .clean e) :
      (Doc.concat (.text "<" :: name :: typeArguments :: docs)).Neat mode .ragged e :=
    .cons (hstart mode) (.cons (hname.neat mode .clean) (.cons (harguments mode) h))
  have hspread : (tag.spread o name typeArguments attributes).IsSolid := by
    refine IsSolid.group (fun mode => ?_) _
    have hlines := hfront mode (neat_attributes hattributes mode).indent.singleton
    have hbracket : (Doc.text (if tag.selfClosing then "/>" else ">")).IsSolid :=
      .text (by split_ifs <;> decide)
    refine (hlines.concat_append ?_).concat_append (hbracket mode).singleton
    split_ifs
    · exact .weaken (Edge.le_refl _) (Edge.le_ragged _) (.nil mode .clean)
    · exact .singleton (.line mode .orNil)
  rw [OpeningTag.doc.eq_def]
  split
  · split_ifs
    · exact fun mode => hfront mode (hend.neat mode .clean).singleton
    · exact hspread
  · next only _ =>
    split_ifs
    · refine IsSolid.group (fun mode => hfront mode (.cons (.text mode .clean (by decide)) ?_)) _
      exact .cons (hattributes _ List.mem_cons_self |>.neat mode _)
        (hend.neat mode .clean).singleton
    · exact hspread
  · exact hspread

end OpeningTag

/-! ## Braces and parentheses -/

namespace Brace

theorem isSolid_hugging (h : ∀ mode, inside.Neat mode .clean .ragged) :
    (hugging inside).IsSolid := by
  have hstart : (Doc.text "\x7b").IsSolid := .text (by decide)
  have hend : (Doc.text "\x7d").IsSolid := .text (by decide)
  exact IsSolid.group (fun mode => .cons (hstart mode) (.cons (h mode)
    (.cons (.suffixBoundary mode .ragged) (hend mode).singleton))) false

/-- What is indented on lines of its own, **between two edges of braces**. -/
theorem neat_indent (h : inside.IsSolid) (mode : Mode) :
    (Doc.indent (Doc.line .orNil ++ inside)).Neat mode .clean .clean :=
  .indent (.append (.line mode .orNil) (h mode))

theorem isSolid_apart (h : inside.IsSolid) : (apart inside).IsSolid := by
  have hstart : (Doc.text "\x7b").IsSolid := .text (by decide)
  have hend : (Doc.text "\x7d").IsSolid := .text (by decide)
  exact IsSolid.group (fun mode => .cons (hstart mode) (.cons (neat_indent h mode)
    (.cons (.line mode .orNil) (.cons (.suffixBoundary mode .ragged) (hend mode).singleton)))) false

theorem isSolid_spread (h : ∀ mode, inside.Neat mode .clean .ragged) : (spread inside).IsSolid := by
  have hstart : (Doc.text "\x7b").IsSolid := .text (by decide)
  have hend : (Doc.text "\x7d").IsSolid := .text (by decide)
  exact fun mode => .cons (hstart mode) (.cons (h mode) (hend mode).singleton)

theorem isSolid_spreadText {printed : Doc} (h : printed.IsSolid) :
    (Doc.text "..." ++ printed).IsSolid := by
  have hdots : (Doc.text "...").IsSolid := .text (by decide)
  exact fun mode => (hdots mode).append (h.neat mode .clean)

theorem neat_commented (h : inside.IsSolid) (mode : Mode) :
    (commented inside).Neat mode .clean .ragged :=
  .cons (neat_indent h mode) (.singleton (.line mode .orNil))

/-- Braces may hold **nothing at all**. -/
theorem neat_onlyComments {comments : List Comment} (h : Comment.AllSolid comments) (mode : Mode) :
    (onlyComments (comments.any Comment.isLine)
      (Comment.dangling comments !comments.any Comment.isLine)).Neat mode .clean .ragged := by
  have hdangling :
      (Comment.dangling comments !comments.any Comment.isLine).Neat mode .clean .clean := by
    cases hsome : comments.any Comment.isDangling with
    | true =>
      obtain ⟨hsame, hown⟩ := Comment.neat_dangling h hsome mode
      cases comments.any Comment.isLine with
      | true => exact hown
      | false => exact .weaken (Edge.clean_le _) (Edge.le_refl _) hsame
    | false =>
      rw [Comment.dangling_of_none hsome]
      exact .nil mode .clean
  rw [onlyComments]
  split_ifs
  · exact hdangling.append (.line mode .hard)
  · exact .weaken (Edge.le_refl _) (Edge.le_ragged _) hdangling

end Brace

namespace Parens

/-- Parentheses **that are printed** leave a clean edge: they are there if the
lines beside them are. -/
theorem isSolid_around (shouldBreak : Bool) (h : doc.IsSolid) :
    (around false shouldBreak doc).IsSolid := by
  have hparen {s : String} (hs : Text.IsSolid s) (mode : Mode) (d : Edge) :
      (Doc.flatOrBroken .nil (.text s)).Neat mode d (if mode = .flat then d else .clean) := by
    have htext := (IsSolid.text hs).neat .broken d
    cases mode with
    | flat => exact .ifFlat (.nil .flat d) htext
    | broken => exact .ifBroken (.nil .flat d) htext
  have hflat : (Doc.indent (Doc.line .orNil ++ doc)).Neat .flat .ragged .clean :=
    .indent (.append (.noSpace .ragged) (h .flat))
  refine IsSolid.group (fun mode => ?_) shouldBreak
  cases mode with
  | flat =>
    exact .cons (hparen (by decide) .flat .ragged)
      (.cons hflat (.cons (.noSpace .clean) (hparen (by decide) .flat .clean).singleton))
  | broken =>
    exact .cons (hparen (by decide) .broken .ragged) (.cons (Brace.neat_indent h .broken)
      (.cons (.line .broken .orNil) (hparen (by decide) .broken .ragged).singleton))

/-- With parentheses that are there already, the lines beside them **are left alone**. -/
theorem neat_around (alreadyThere shouldBreak : Bool) (h : doc.IsSolid) (mode : Mode) :
    (around alreadyThere shouldBreak doc).Neat mode .clean .ragged := by
  cases alreadyThere with
  | true =>
    have hlines (mode : Mode) : (Doc.concat [.nil, .indent (Doc.line .orNil ++ doc), .line .orNil,
        .nil]).Neat mode .clean .ragged :=
      .cons (.nil mode .clean) (.cons (Brace.neat_indent h mode)
        (.cons (.line mode .orNil) (.singleton (.nil mode .ragged))))
    exact .group shouldBreak (hlines .flat) (hlines .broken)
  | false =>
    exact .weaken (Edge.clean_le _) (Edge.le_ragged _) (isSolid_around shouldBreak h mode)

end Parens

/-! ## Nodes -/

/-- What is written does not end with blanks, no place is left empty, and what is spread **may be in
parentheses already**, or not. -/
def Conditions.tidy (inParens : Bool) : Conditions :=
  ⟨Text.IsSolid, fun place => place.isTidy inParens = true, fun alreadyThere =>
    alreadyThere = true → inParens = true⟩

theorem Conditions.Comments.allSolid {inParens : Bool} {comments : List Comment}
    (h : (Conditions.tidy inParens).Comments comments) : Comment.AllSolid comments :=
  List.forall_mem_map.mp h

/-- Neat **between two edges of braces**, where parentheses that are there already leave lines at
both ends; without them, a clean edge. -/
def Doc.IsSpreadNeat (inParens : Bool) (doc : Doc) : Prop :=
  if inParens then ∀ mode, doc.Neat mode .clean .ragged else doc.IsSolid

theorem Doc.IsSolid.isSpreadNeat (h : doc.IsSolid) (inParens : Bool) :
    doc.IsSpreadNeat inParens := by
  cases inParens with
  | true => exact fun mode => .weaken (Edge.le_refl _) (Edge.le_ragged _) (h.neat mode .clean)
  | false => exact h

theorem Doc.IsSpreadNeat.neat {inParens : Bool} (h : doc.IsSpreadNeat inParens) (mode : Mode) :
    doc.Neat mode .clean .ragged := by
  cases inParens with
  | true => exact h mode
  | false => exact .weaken (Edge.le_refl _) (Edge.le_ragged _) (IsSolid.neat h mode .clean)

/-- A clean edge is kept by **all ways of putting documents together**. -/
theorem Conditions.keep_isSolid (inParens : Bool) (o : LanguageOptions) :
    (Conditions.tidy inParens).Keep o IsSolid (Doc.IsSpreadNeat inParens) where
  text h := .text h
  string q _ h := .text (AttributeString.isSolid_normalize q h)
  around h _ hdoc mode := Comment.neat_around h.allSolid (hdoc mode)
  bare hname mode := (hname mode).singleton
  valued hname hvalue mode := .cons (hname mode) (.cons (.text mode .clean (by decide))
    (hvalue.neat mode _).singleton)
  closing hname mode := by
    have hstart : (Doc.text "</").IsSolid := .text (by decide)
    have hend : (Doc.text ">").IsSolid := .text (by decide)
    exact .cons (hstart mode) (.cons (hname.neat mode .clean) (hend.neat mode .clean).singleton)
  opening tag _ _ _ hname harguments hattributes :=
    OpeningTag.isSolid_doc tag hname (fun mode => harguments.elim
      (fun hnil => hnil ▸ .nil mode .clean) fun harguments =>
        harguments.neat mode .clean) hattributes
  openingFragment h hplace := Tag.isSolid_fragment (by decide) false h.allSolid hplace
  closingFragment h hplace := Tag.isSolid_fragment (by decide) true h.allSolid hplace
  lone h hplace := by
    obtain ⟨hsome, hline⟩ := Bool.and_eq_true_iff.mp hplace
    rw [show List.any _ Comment.isLine = false by simpa using hline]
    exact fun mode => (Comment.neat_dangling h.allSolid hsome mode).1
  emptyBraces h := Brace.isSolid_hugging (Brace.neat_onlyComments h.allSolid)
  hugging h := Brace.isSolid_hugging fun mode =>
    .weaken (Edge.le_refl _) (Edge.le_ragged _) (h.neat mode .clean)
  apart h := Brace.isSolid_apart h
  weaken h := h.isSpreadNeat inParens
  parens {alreadyThere} h shouldBreak doc hdoc := by
    cases alreadyThere with
    | true =>
      rw [h rfl]
      exact Parens.neat_around true shouldBreak hdoc
    | false => exact (Parens.isSolid_around shouldBreak hdoc).isSpreadNeat inParens
  commented {comments} hplace hsome doc hdoc := by
    have hout : inParens = false := by simpa [tidy, Place.isTidy, hsome] using hplace
    rw [hout] at hdoc
    exact hdoc
  spread h := Brace.isSolid_spread fun mode =>
    .append ((IsSolid.text (by decide)).neat mode .clean) (h.neat mode)
  spreadCommented h _ hprinted := Brace.isSolid_spread (Brace.neat_commented fun mode =>
    Comment.neat_around h.allSolid (Brace.isSolid_spreadText hprinted mode))
  body hplace hopening hclosing hchildren hdocs :=
    Shell.isSolid_doc hplace hopening hclosing hchildren hdocs

/-! ## Elements and fragments -/

/-- A body that leaves no blanks **in the position of its node**.  An embedded block is printed
without its tags: no space may stand in front of it, and in parentheses, which have lines of their
own, it has to hold something and no space behind that. -/
def Place.IsTidyIn (inParens : Bool) (position : Position) : Place → Prop
  | body isElement isClosed nodes =>
    if position.isEmbedded = true then
      (Child.read (nodes.map Node.asChild)).spaceAtStart = false ∧
        (position.ancestors.AddNoParens ∨ (body isElement true nodes).isTidy inParens = true ∧
          (Child.read (nodes.map Node.asChild)).spaceAtEnd = false)
    else (body isElement isClosed nodes).isTidy inParens = true
  | place => place.isTidy inParens = true

/-- The body of a node by itself is neat up to **an edge that is clean in parentheses**. -/
theorem Shell.exists_neat_doc {inParens : Bool} {position : Position} {shell : Shell}
    {nodes : List Node} {children : List Child}
    (htidy : (Place.body shell.isElement shell.closing.isSome nodes).IsTidyIn inParens position)
    (hopening : shell.opening.IsSolid) (hclosing : ∀ doc ∈ shell.closing, doc.IsSolid)
    (hchildren : List.Forall₂ Node.IsChild nodes children)
    (hdocs : ∀ kind doc, .printed kind doc ∈ children → doc.IsSolid) :
    ∃ e, (e = .clean ∨ position.ancestors.AddNoParens) ∧
      ∀ mode, (shell.doc o position.isEmbedded children).Neat mode .ragged e := by
  rw [Place.IsTidyIn] at htidy
  split_ifs at htidy with hembedded
  · obtain ⟨hfront, hparens | hback⟩ := htidy
    · rw [hembedded]
      exact ⟨.ragged, .inr hparens,
        @neat_doc_embedded o inParens shell nodes children .ragged hopening hclosing hchildren
          hdocs hfront (by cases ·)⟩
    · rw [hembedded]
      exact ⟨.clean, .inl rfl,
        neat_doc_embedded hopening hclosing hchildren hdocs hfront fun _ => hback⟩
  · rw [show position.isEmbedded = false by simpa using hembedded]
    exact ⟨.clean, .inl rfl, isSolid_doc htidy hopening hclosing hchildren hdocs⟩

namespace Markup

theorem always_neat_surrounded (hhost : host.PrintsVerbatim) {ancestors : Ancestors} {e : Edge}
    (he : e = .clean ∨ ancestors.AddNoParens) {comments : List Comment}
    (h : Comment.AllSolid comments) (hdoc : ∀ mode, doc.Neat mode .ragged e) :
    (surrounded ancestors comments doc).Always host fun doc => doc.Neat .broken .clean .ragged := by
  refine always_bind ((hhost.always_comments comments doc).imp ?_)
  rintro _ rfl
  have hcommented (mode : Mode) := Comment.neat_around h (hdoc mode)
  have hplain : (Comment.around comments doc).Neat .broken .clean .ragged :=
    .weaken (Edge.clean_le _) (Edge.le_ragged _) (hcommented .broken)
  rw [Parens.document.eq_def]
  split
  · exact always_done hplain
  · next parent others =>
    split_ifs with hsuppress
    · exact always_done hplain
    · obtain rfl : e = .clean := he.resolve_right fun hnone => hsuppress (hnone parent rfl)
      exact always_bind (always_question fun s => ⟨rfl, always_done
        (Parens.neat_around _ _ hcommented .broken)⟩)

/-- Markup **by itself** is neat, whatever its parent and the parentheses that are there already. -/
theorem always_neat {inParens : Bool} (hhost : host.Meets (Conditions.tidy inParens))
    {position : Position} (markup : Markup) (h : ∀ s ∈ markup.written, Text.IsSolid s)
    (hinner : ∀ place ∈ markup.innerPlaces, place.isTidy inParens = true)
    (hbody : markup.ownBody.IsTidyIn inParens position) :
    (markup.document o position.ancestors position.isEmbedded).Always host
      fun doc => doc.Neat .broken .clean .ragged := by
  have hkeep := Conditions.keep_isSolid inParens o
  match markup with
  | .element tag closing children comments =>
    rw [Markup.written, List.forall_mem_append, List.forall_mem_append, List.forall_mem_append] at h
    obtain ⟨htag, hclosing, hchildren, hcomments⟩ := h
    rw [Markup.innerPlaces, List.forall_mem_append] at hinner
    rw [Markup.document]
    refine always_bind ((OpeningTag.always_keeps hhost hkeep _ tag htag hinner.1).imp
      fun _ hopening => ?_)
    refine always_bind ((Markup.always_keeps_closing hhost hkeep hclosing).imp
      fun closingDoc hclosing => ?_)
    have hnone : Ancestors.AddNoParens (.jsxElement :: position.ancestors) :=
      Ancestors.addNoParens_cons rfl position.ancestors
    refine always_bind ((Node.always_allKeep hhost hkeep hnone children hchildren hinner.2).imp
      fun _ hinside => ?_)
    rw [Markup.ownBody, ← hclosing.1] at hbody
    obtain ⟨e, he, hdoc⟩ :=
      @Shell.exists_neat_doc o inParens position (Shell.ofElement tag _ closingDoc) _ _
      hbody hopening hclosing.2 hinside.1 hinside.2
    exact always_neat_surrounded hhost.verbatim he (List.forall_mem_map.mp hcomments) hdoc
  | .fragment openingComments closingComments children comments =>
    rw [Markup.written, List.forall_mem_append, List.forall_mem_append, List.forall_mem_append] at h
    obtain ⟨hopening, hclosing, hchildren, hcomments⟩ := h
    rw [Markup.innerPlaces, List.forall_mem_cons, List.forall_mem_cons] at hinner
    obtain ⟨hfirst, hsecond, hinner⟩ := hinner
    rw [Markup.document]
    refine always_bind ((Tag.always_keeps_fragment hhost hkeep hopening hfirst).1.imp
      fun _ hopening => ?_)
    refine always_bind ((Tag.always_keeps_fragment hhost hkeep hclosing hsecond).2.imp
      fun closingDoc hclosing => ?_)
    have hnone : Ancestors.AddNoParens (.jsxFragment :: position.ancestors) :=
      Ancestors.addNoParens_cons rfl position.ancestors
    refine always_bind ((Node.always_allKeep hhost hkeep hnone children hchildren hinner).imp
      fun _ hinside => ?_)
    have hclosingDoc : ∀ doc ∈ some closingDoc, doc.IsSolid := fun doc hdoc => by
      cases hdoc
      exact hclosing
    obtain ⟨e, he, hdoc⟩ :=
      @Shell.exists_neat_doc o inParens position (Shell.ofFragment _ closingDoc) _ _
      hbody hopening hclosingDoc hinside.1 hinside.2
    exact always_neat_surrounded hhost.verbatim he (List.forall_mem_map.mp hcomments) hdoc

/-- **No blanks at the ends of lines.**  An element or a fragment is formatted, and no line that a
line break follows ends with a space or a tab, so an empty line is not indented: if nothing that is
written in it ends with blanks and if no place in it is left empty.  What it spreads may be in
parentheses already as long as it has no comments. -/
theorem format_clean (hhost : host.PrintsVerbatim) {inParens : Bool}
    (hspread : ∀ parent others s, parent.isSpread = true →
      (host.parens (parent :: others) s).1 = true → inParens = true)
    {markup : Markup} (h : ∀ s ∈ markup.written, Text.IsSolid s)
    (hinner : ∀ place ∈ markup.innerPlaces, place.isTidy inParens = true) {position : Position}
    (hbody : markup.ownBody.IsTidyIn inParens position) (o : Options)
    (hindent : 0 < o.layout.indentWidth) (s : σ) :
    ∃ output, ((Node.markup markup).format host position o s).1 = .ok output ∧
      ∀ xs ys, output.toList = xs ++ o.layout.lineBreak.chars ++ ys →
      Text.endsBlank xs = false := by
  have hmeets : host.Meets (Conditions.tidy inParens) :=
    ⟨hhost, fun hparent others s => hspread _ others s hparent⟩
  have hdocument : ((Node.markup markup).printing position o.language).Always host
      fun doc => doc.Neat .broken .clean .ragged := by
    rw [Node.printing, Node.document]
    exact always_neat hmeets markup h hinner hbody
  obtain ⟨hfailures, hneat⟩ := hdocument s
  set doc := (((Node.markup markup).printing position o.language).run host s).value
  have htypeset : doc.typeset o.layout = .ok (Piece.write o.layout (doc.pieces o.layout)) := by
    rw [Doc.typeset, if_neg (Nat.pos_iff_ne_zero.mp hindent)]
  exact ⟨_, Node.format_of_print (Node.print_of_failures hfailures) htypeset,
    fun xs ys heq => hneat.not_endsBlank htypeset heq⟩

/-- `<>{...<br />}⏎⏎{x}</>` -/
def spreadAndBraces : Markup :=
  .fragment [] []
    [.spreadChild
      (.markup (.markup (.element ⟨⟨"br", []⟩, none, [], true⟩ none [] [])) "<br />" []),
      .text "\n\n", .container (.filled (.foreign ⟨.other, "x", []⟩))] []

/-- The host that prints expressions as they are written, **in parentheses** of its own. -/
def parenthesizing : Host Unit Empty := { Host.verbatim with parens := fun _ s => (true, s) }

/-- In parentheses behind `return`, with an empty line between spread markup and braces. -/
theorem format_clean_spreadAndBraces :
    let position : Position := { ancestors := [.returnStatement] }
    (parenthesizing.PrintsVerbatim ∧ (∀ parent others s, parent.isSpread = true →
          (parenthesizing.parens (parent :: others) s).1 = true → true = true) ∧
        (∀ s ∈ spreadAndBraces.written, Text.IsSolid s) ∧
        (∀ place ∈ spreadAndBraces.innerPlaces, place.isTidy true = true) ∧
        spreadAndBraces.ownBody.IsTidyIn true position) ∧
      ((Node.markup spreadAndBraces).format parenthesizing position {} ()).1 =
        .ok "\n  <>\n    \x7b...<br />\x7d\n\n    \x7bx\x7d\n  </>\n" ∧
      ∃ output,
        ((Node.markup spreadAndBraces).format parenthesizing position {} ()).1 = .ok output ∧
        ∀ xs ys, output.toList = xs ++ ['\n'] ++ ys → Text.endsBlank xs = false :=
  have hhost : parenthesizing.PrintsVerbatim :=
    ⟨fun _ _ _ => rfl, fun _ _ _ => rfl, fun _ _ _ => rfl⟩
  have hspread : ∀ parent others s, parent.isSpread = true →
      (parenthesizing.parens (parent :: others) s).1 = true → true = true := fun _ _ _ _ _ => rfl
  have hwritten : ∀ s ∈ spreadAndBraces.written, Text.IsSolid s := by decide
  have hinner : ∀ place ∈ spreadAndBraces.innerPlaces, place.isTidy true = true := by decide
  have hbody : spreadAndBraces.ownBody.IsTidyIn true { ancestors := [.returnStatement] } := rfl
  ⟨⟨hhost, hspread, hwritten, hinner, hbody⟩, rfl,
    format_clean hhost hspread hwritten hinner hbody {} (by decide) ()⟩

/-- `<></>` -/
def emptyFragment : Markup := .fragment [] [] [] []

/-- In four columns a fragment without children takes three lines, of which the empty one **is
indented**. -/
theorem not_clean_emptyFragment :
    let o : Options := { layout.printWidth := 4 }
    let output := "<>\n  \n</>"
    (∀ s ∈ emptyFragment.written, Text.IsSolid s) ∧ 0 < o.layout.indentWidth ∧
      ((Node.markup emptyFragment).format Host.verbatim {} o ()).1 = .ok output ∧
      ¬ ∀ xs ys, output.toList = xs ++ o.layout.lineBreak.chars ++ ys →
      Text.endsBlank xs = false := by
  refine ⟨nofun, by decide, rfl, fun hclean => ?_⟩
  have hblank := hclean ['<', '>', '\n', ' ', ' '] ['<', '/', '>'] rfl
  cases hblank

end Markup

end Reflow
