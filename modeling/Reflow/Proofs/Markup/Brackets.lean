import Reflow.Proofs.Markup.Building

/-!
# Proofs/Markup/Brackets — brackets behind what is held back

A line comment, or whatever else a host holds back, is printed at the end of its line; a bracket
further down that line comes in front of it.  Most brackets do not: a brace has the boundary of a
line before it, and the bracket of a tag has a line of its own if the tag breaks, as it must around
anything held back.  If it follows the last attribute instead, the line before that attribute takes
along what was held back until then (`OpeningTag.settles_spread`).  `Node.bracket?` says which
brackets are safe and `Node.closes` that they close.

The others are printed right behind something that may hold back: the name of a closing tag, what is
spread without comments, an attribute with its tag's bracket behind it that is not safe by itself.
-/

namespace Reflow

open Dialogue
open Doc (AllCarry Carries)

/-! ## What may be held back -/

/-- Whether a comment on a name or on type arguments is held back. -/
def Verbatim.holdsBack (text : Verbatim) : Bool := text.comments.any Comment.isHeldBack

/-- Whether the value of an attribute **prints what it holds back** before its
end.  Markup may not. -/
def AttributeValue.isSafe : AttributeValue → Bool
  | string _ | container _ => true
  | markup _ => false

/-- Whether an attribute **prints what it holds back** before its end. -/
def Attribute.isSafe : Attribute → Bool
  | bare name comments => !name.holdsBack && !comments.any Comment.isHeldBack
  | valued name value comments =>
    !name.holdsBack && value.isSafe && !comments.any Comment.isHeldBack
  | spread argument comments => !argument.comments.isEmpty && !comments.any Comment.isHeldBack

namespace OpeningTag

/-- The bracket of an opening tag. -/
def bracket (tag : OpeningTag) : String := if tag.selfClosing then "/>" else ">"

/-- Whether the only attribute of a tag is **kept on its line**. -/
def keepsLone (tag : OpeningTag) : Bool :=
  match tag.attributes with
  | [lone] => lone.isPlainString && !tag.nameHasComments
  | _ => false

/-- Whether the bracket of a tag is **safe**: it has a line of its own if the tag breaks, or nothing
that is held back may be pending behind the last attribute. -/
def isSafe (o : LanguageOptions) (tag : OpeningTag) : Bool :=
  !tag.bracketSameLine o && !tag.keepsLone || tag.attributes.getLast?.all Attribute.isSafe

end OpeningTag

/-- The **safe bracket** at the end of a node, if it has one. -/
def Node.bracket? (o : LanguageOptions) : Node → Option String
  | openingTag tag => if tag.isSafe o then some tag.bracket else none
  | closingTag name => if name.holdsBack then none else some ">"
  | openingFragment _ | closingFragment _ => some ">"
  | container _ => some "\x7d"
  | spreadChild argument | attr (.spread argument []) =>
    if argument.comments.isEmpty then none else some "\x7d"
  | text _ | markup _ | attr _ | emptyExpression _ => none

/-- A host that **does not hide what it holds back**, and leaves comments to the defaults. -/
structure Host.IsCandid {σ ε : Type} (host : Host σ ε) : Prop where
  expression {e : ForeignExpression} {ancestors : Ancestors} {s : σ} {doc : Doc}
    (h : (host.expression e ancestors s).1 = .ok doc) : doc.IsCandid
  ownComments (e : Expression) (s : σ) : (host.ownComments e s).1 = false
  comments : host.DefaultComments
  dangling (comments : List Comment) (sameIndent : Bool) (s : σ) :
    (host.dangling comments sameIndent s).1 = Comment.dangling comments sameIndent

variable {σ ε α : Type} {host : Host σ ε} {o : LanguageOptions} {ancestors : Ancestors}

theorem Doc.maxSuffixDepth_intersperse {docs : List Doc} (h : ∀ doc ∈ docs, doc.suffixDepth = 0) :
    maxSuffixDepth (docs.intersperse (.line .hard)) = 0 := by
  induction docs with
  | nil => rfl
  | cons doc docs ih =>
    obtain ⟨hdoc, hdocs⟩ := List.forall_mem_cons.mp h
    cases docs with
    | nil => exact Nat.max_eq_zero_iff.mpr ⟨hdoc, rfl⟩
    | cons next docs =>
      rw [List.intersperse_cons_cons]
      exact Nat.max_eq_zero_iff.mpr ⟨hdoc, Nat.max_eq_zero_iff.mpr ⟨rfl, ih hdocs⟩⟩

/-- Dangling comments are **not held back**. -/
theorem Comment.suffixDepth_dangling (comments : List Comment) (sameIndent : Bool) :
    (Comment.dangling comments sameIndent).suffixDepth = 0 := by
  have hall : ∀ doc ∈ (comments.filter Comment.isDangling).map fun c => Doc.text c.raw,
      doc.suffixDepth = 0 := List.forall_mem_map.mpr fun _ _ => rfl
  have hjoined := Doc.maxSuffixDepth_intersperse hall
  rw [Comment.dangling]
  generalize (comments.filter Comment.isDangling).map (fun c => Doc.text c.raw) = docs at hjoined
  cases docs with
  | nil => rfl
  | cons doc docs =>
    dsimp only
    split_ifs
    · exact hjoined
    · exact Nat.max_eq_zero_iff.mpr ⟨rfl, Nat.max_eq_zero_iff.mpr ⟨hjoined, rfl⟩⟩

/-- What holds of **all that holds nothing back**, and of what the host prints of expressions, holds
of all that it answers of its own, if dangling comments are printed as by default. -/
theorem Dialogue.forall_own_mem_of_quiet {P : Doc → Prop}
    (quiet : ∀ doc, doc.suffixDepth = 0 → P doc) (hdangling : ∀ comments sameIndent s,
      (host.dangling comments sameIndent s).1 = Comment.dangling comments sameIndent)
    (hexpression : ∀ e ancestors s doc, (host.expression e ancestors s).1 = .ok doc → P doc)
    (d : Dialogue α) (s : σ) {doc : Doc}
    (h : .own doc ∈ (d.exchanges host s).flatMap Exchange.answers) : P doc := by
  refine forall_own_mem (fun e ancestors s => ?_) (fun comments sameIndent s => quiet _ ?_) d s h
  · exact Host.answer_expression_of (hexpression e ancestors s) (quiet _ rfl)
  · rw [show (host.answer s (.dangling comments sameIndent)).value = _ from
      hdangling comments sameIndent s]
    exact Comment.suffixDepth_dangling comments sameIndent

/-- A document built from the answers of such a host is **candid**. -/
theorem Dialogue.Builds.isCandid {d : Dialogue Doc} (h : d.Builds host) (hhost : host.IsCandid)
    (s : σ) : (d.run host s).value.IsCandid :=
  (h s).isCandid fun _ hmem => forall_own_mem_of_quiet (fun _ => Doc.isCandid_of_suffixDepth)
    hhost.dangling (fun _ _ _ _ => hhost.expression) d s (Multiset.mem_coe.mp hmem)

/-! ## What holds nothing back -/

theorem gathers_comments_eq (hhost : host.DefaultComments) (comments : List Comment) (doc : Doc) :
    (question (.comments comments doc)).Gathers host fun _ result =>
      result = Comment.around comments doc :=
  tells_question fun s => hhost comments doc s

theorem Verbatim.gathers_quiet (hhost : host.DefaultComments) {text : Verbatim}
    (h : text.holdsBack = false) :
    text.document.Gathers host fun _ doc => doc.suffixDepth = 0 := by
  refine (gathers_comments_eq hhost _ _).imp ?_
  rintro _ _ rfl
  exact Nat.le_zero.mp (Comment.suffixDepth_around_le (Nat.le_refl 0) fun _ => h)

theorem gathers_settles_comments (hhost : host.DefaultComments) {comments : List Comment}
    (h : comments.any Comment.isHeldBack = false) {doc : Doc} (hdoc : doc.Settles) :
    (question (.comments comments doc)).Gathers host fun _ result => result.Settles := by
  refine (gathers_comments_eq hhost comments doc).imp fun _ result hresult => ?_
  rw [hresult]
  exact Comment.settles_around h hdoc

namespace Verbatim

/-- A name without comments **prints nothing later**. -/
theorem gathers_settles (hhost : host.DefaultComments) (text : Verbatim) :
    text.document.Gathers host fun _ doc => text.comments.isEmpty = true → doc.Settles := by
  intro s hnone
  have hquiet : text.holdsBack = false := by
    rw [holdsBack, List.isEmpty_iff.mp hnone]
    rfl
  exact Doc.settles_of_suffixDepth (text.gathers_quiet hhost hquiet s)

theorem gathers_settles_optional (hhost : host.DefaultComments) (text : Option Verbatim) :
    (optionalDocument text).Gathers host fun _ doc =>
      (text.any fun given => !given.comments.isEmpty) = false → doc.Settles := by
  cases text with
  | none => exact gathers_done fun _ => Doc.settles_of_suffixDepth rfl
  | some text =>
    exact (text.gathers_settles hhost).imp fun _ _ hdoc hnone => hdoc (by simpa using hnone)

end Verbatim

/-! ## Braces -/

/-- Braces close **whatever is in them**: the boundary of a line is in front of the brace. -/
theorem Container.closes_braces (container : Container) (ancestors : Ancestors) {inside : Doc}
    (h : (container.braces ancestors inside).IsCandid) :
    (container.braces ancestors inside).Closes "\x7d" := by
  rw [braces] at h ⊢
  split_ifs at h ⊢
  · exact ⟨(Doc.endsWith_concat [.text "\x7b", inside, .suffixBoundary] List.suffix_rfl).group
      false, @Doc.Settles.group_of_stop _ [.text "\x7b", inside] [.text "\x7d"] _ h
        Doc.stops_suffixBoundary rfl⟩
  · exact ⟨(Doc.endsWith_concat [.text "\x7b", .indent (Doc.line .orNil ++ inside), .line .orNil,
        .suffixBoundary] List.suffix_rfl).group false,
      @Doc.Settles.group_of_stop _ [.text "\x7b", .indent (Doc.line .orNil ++ inside), .line .orNil]
        [.text "\x7d"] _ h Doc.stops_suffixBoundary rfl⟩

namespace Brace

/-- What is spread **between comments** is closed by its brace, which has a line of its own. -/
theorem closes_commented {inside : Doc} (h : (spread (commented inside)).IsCandid) :
    (spread (commented inside)).Closes "\x7d" := by
  have hcommented : (commented inside).IsCandid := by
    refine ⟨(Doc.maxSuffixDepth_le_iff.mp h.shallow) _ (by simp), fun hbreak => ?_⟩
    refine (Doc.maxSuffixDepth_eq_zero_iff _).mp (h.none_of_not_break ?_) _ (by simp)
    simp [spread, hbreak, Doc.willBreak]
  refine ⟨Doc.endsWith_concat [.text "\x7b", commented inside] List.suffix_rfl, .concat ?_⟩
  rw [List.forall_mem_cons, List.forall_mem_cons, List.forall_mem_singleton]
  exact ⟨Doc.settles_text "\x7b",
    @Doc.Settles.of_stop [.indent (Doc.line .orNil ++ inside)] [] _ hcommented
      (Doc.stops_line .orNil) rfl,
    Doc.settles_text "\x7d"⟩

/-- Comments on what is spread are printed **around it**. -/
theorem gathers_commented (hhost : host.IsCandid) {argument : Expression}
    (h : argument.comments.isEmpty = false) (printed : Doc) :
    (spreadDocument argument printed).Gathers host fun _ doc =>
      ∃ inside, doc = spread (commented inside) := by
  rw [spreadDocument, if_neg (by simp [h])]
  refine gathers_bind (tells_question fun s => ?_)
  have hown : (host.answer s (.ownComments argument)).value = false := hhost.ownComments argument s
  rw [hown]
  exact gathers_bind ((gathers_comments_eq hhost.comments _ _).imp fun _ doc _ =>
    gathers_done ⟨doc, rfl⟩)

end Brace

/-- A container is printed **in braces**. -/
theorem Container.gathers_braces (ancestors : Ancestors) (container : Container) :
    (container.document o ancestors).Gathers host fun _ doc =>
      ∃ inside, doc = container.braces ancestors inside := by
  cases container with
  | empty comments =>
    rw [Container.document]
    exact gathers_bind_any fun inside => gathers_done ⟨inside, rfl⟩
  | filled expression =>
    rw [Container.document]
    exact gathers_bind_any fun inside => gathers_done ⟨inside, rfl⟩

theorem Container.closes_document (hhost : host.IsCandid) (ancestors : Ancestors)
    (container : Container) :
    (container.document o ancestors).Gathers host fun _ doc => doc.Closes "\x7d" := by
  intro s
  have hcandid := (Container.builds (o := o) hhost.comments ancestors container).isCandid hhost s
  obtain ⟨inside, hdoc⟩ := Container.gathers_braces ancestors container s
  rw [hdoc] at hcandid ⊢
  exact container.closes_braces ancestors hcandid

theorem Brace.closes_document (hhost : host.IsCandid) {argument : Expression}
    (h : argument.comments.isEmpty = false) (path : Ancestors) :
    (do Brace.spreadDocument argument (← argument.document o path)).Gathers host fun _ doc =>
      doc.Closes "\x7d" := by
  intro s
  have hbuilds : (do Brace.spreadDocument argument (← argument.document o path)).Builds host :=
    gathers_bind (Gathers.imp (Expression.builds hhost.comments path argument)
      fun _ _ hprinted => Brace.builds_spread hhost.comments argument hprinted)
  have hshape : (do Brace.spreadDocument argument (← argument.document o path)).Gathers host
      fun _ doc => ∃ inside, doc = spread (commented inside) :=
    gathers_bind (Gathers.imp (Expression.builds hhost.comments path argument)
      fun _ printed _ => Brace.gathers_commented hhost h printed)
  have hcandid := hbuilds.isCandid hhost s
  obtain ⟨inside, hdoc⟩ := hshape s
  rw [hdoc] at hcandid ⊢
  exact Brace.closes_commented hcandid

/-! ## Attributes -/

theorem AttributeValue.gathers_settles (hhost : host.IsCandid) {value : AttributeValue}
    (h : value.isSafe = true) :
    (value.document o ancestors).Gathers host fun _ doc => doc.Settles := by
  cases value with
  | string raw =>
    rw [AttributeValue.document]
    exact gathers_done (Doc.settles_text raw)
  | container container =>
    rw [AttributeValue.document]
    exact (Container.closes_document hhost ancestors container).imp fun _ _ hvalue => hvalue.settles
  | markup => cases h

/-- Nothing is pending **behind a safe attribute**. -/
theorem Attribute.gathers_settles (hhost : host.IsCandid) {item : Attribute}
    (h : item.isSafe = true) :
    (item.document o ancestors).Gathers host fun _ doc => doc.Settles := by
  cases item with
  | bare name comments =>
    obtain ⟨hname, hcomments⟩ := Bool.and_eq_true_iff.mp h
    rw [Attribute.document]
    refine gathers_bind ((name.gathers_quiet hhost.comments (by simpa using hname)).imp
      fun _ nameDoc hname => ?_)
    refine (gathers_settles_comments hhost.comments (by simpa using hcomments) (.concat ?_))
    exact List.forall_mem_singleton.mpr (Doc.settles_of_suffixDepth hname)
  | valued name value comments =>
    obtain ⟨hrest, hcomments⟩ := Bool.and_eq_true_iff.mp h
    obtain ⟨hname, hvalue⟩ := Bool.and_eq_true_iff.mp hrest
    rw [Attribute.document]
    refine gathers_bind ((name.gathers_quiet hhost.comments (by simpa using hname)).imp
      fun _ nameDoc hname => ?_)
    refine gathers_bind ((AttributeValue.gathers_settles hhost hvalue).imp fun _ _ hvalue => ?_)
    refine (gathers_settles_comments hhost.comments (by simpa using hcomments) (.concat ?_))
    simp only [List.forall_mem_cons]
    exact ⟨Doc.settles_of_suffixDepth hname, Doc.settles_text "=", hvalue, by simp⟩
  | spread argument comments =>
    obtain ⟨hargument, hcomments⟩ := Bool.and_eq_true_iff.mp h
    rw [Attribute.document, ← bind_assoc]
    refine gathers_bind ((Brace.closes_document hhost (by simpa using hargument) _).imp
      fun _ doc hdoc => ?_)
    exact gathers_settles_comments hhost.comments (by simpa using hcomments) hdoc.settles

/-- The documents of attributes, and **what is pending behind the last one**. -/
theorem Attribute.gathers_last (hhost : host.IsCandid) (items : List Attribute) :
    (Attribute.documents o ancestors items).Gathers host fun _ docs =>
      docs.length = items.length ∧ (items.getLast?.all Attribute.isSafe = true →
        ∀ last ∈ docs.getLast?, last.Settles) := by
  induction items with
  | nil =>
    rw [Attribute.documents]
    exact gathers_done ⟨rfl, by simp⟩
  | cons first others ih =>
    rw [Attribute.documents]
    have hfirst : (first.document o ancestors).Gathers host fun _ doc =>
        first.isSafe = true → doc.Settles :=
      fun s hsafe => Attribute.gathers_settles hhost hsafe s
    refine gathers_bind (hfirst.imp fun _ doc hdoc => ?_)
    refine gathers_bind (ih.imp fun _ docs hdocs => gathers_done ⟨?_, fun hsafe => ?_⟩)
    · rw [List.length_cons, List.length_cons, hdocs.1]
    · cases others with
      | nil =>
        obtain rfl := List.length_eq_zero_iff.mp hdocs.1
        rintro _ ⟨⟩
        exact hdoc hsafe
      | cons second others =>
        obtain ⟨next, docs, rfl⟩ := List.exists_cons_of_length_eq_add_one hdocs.1
        rw [List.getLast?_cons_cons] at hsafe ⊢
        exact hdocs.2 hsafe

/-! ## Opening tags -/

namespace OpeningTag

variable {tag : OpeningTag} {name typeArguments : Doc} {attributes : List Doc}

/-- Every layout of a tag **ends with its bracket**. -/
theorem endsWith_doc : (tag.doc o name typeArguments attributes).EndsWith tag.bracket := by
  have honLine : tag.bracket.toList <:+ (tag.endOnLine o).toList := by
    rw [bracket, endOnLine]
    split_ifs
    · exact List.suffix_rfl
    · exact ⟨[' '], rfl⟩
    · exact List.suffix_rfl
  have hspread : (tag.spread o name typeArguments attributes).EndsWith tag.bracket :=
    (Doc.endsWith_concat _ List.suffix_rfl).group _
  rw [doc.eq_def]
  split
  · split_ifs
    · exact Doc.endsWith_concat [.text "<", name, typeArguments] honLine
    · exact hspread
  · next only _ =>
    split_ifs
    · exact (Doc.endsWith_concat [.text "<", name, typeArguments, .text " ", only] honLine).group _
    · exact hspread
  · exact hspread

/-- The parts of a tag, as far as something may be **pending in front of its bracket**. -/
structure PartsSettle (tag : OpeningTag) (name typeArguments : Doc) (attributes : List Doc) :
    Prop where
  length : attributes.length = tag.attributes.length
  name (h : tag.nameHasComments = false) : name.Settles ∧ typeArguments.Settles
  last (h : tag.attributes.getLast?.all Attribute.isSafe = true) :
    ∀ last ∈ attributes.getLast?, last.Settles

/-- The attributes of a tag **take along what is pending** if the last one settles. -/
theorem stops_attributes {front : List Doc} {last : Doc} (hlast : last.Settles)
    (h : Doc.maxSuffixDepth ((front ++ [last]).flatMap fun doc => [.line .orSpace, doc]) ≤ 1) :
    (Doc.indent (.concat ((front ++ [last]).flatMap fun doc => [.line .orSpace, doc]))).Stops := by
  rw [List.flatMap_append, List.flatMap_singleton] at h ⊢
  exact hlast.stops .orSpace h

/-- With its bracket on a line of its own a tag **settles**: that line takes along what is pending.
With the bracket on the last line, the line before the last attribute does. -/
theorem settles_spread (h : (tag.spread o name typeArguments attributes).IsCandid)
    (hparts : PartsSettle tag name typeArguments attributes)
    (hsafe : tag.bracketSameLine o = true → tag.attributes.getLast?.all Attribute.isSafe = true) :
    (tag.spread o name typeArguments attributes).Settles := by
  by_cases hbracket : tag.bracketSameLine o = true
  · have hlast := hparts.last (hsafe hbracket)
    rw [spread, hbracket] at h ⊢
    obtain rfl | ⟨front, last, rfl⟩ := List.eq_nil_or_concat' attributes
    · have hnone : tag.nameHasComments = false := by
        have hnil := List.length_eq_zero_iff.mp hparts.length.symm
        by_contra hname
        simp [bracketSameLine, hnil, Bool.eq_true_of_not_eq_false hname] at hbracket
      obtain ⟨hname, harguments⟩ := hparts.name hnone
      refine .group (.concat ?_) _
      simp only [if_true, List.append_nil, List.forall_mem_append, List.forall_mem_cons]
      exact ⟨⟨Doc.settles_text _, hname, harguments, Doc.settles_of_suffixDepth rfl, by simp⟩,
        Doc.settles_text _, by simp⟩
    · have hdepth :
          Doc.maxSuffixDepth ((front ++ [last]).flatMap fun doc => [.line .orSpace, doc]) ≤ 1 :=
        Doc.maxSuffixDepth_le_iff.mp h.shallow (.indent (.concat _)) (by simp)
      exact @Doc.Settles.group_of_stop _ [.text "<", name, typeArguments] [.text _] _ h
        (stops_attributes (hlast last (by simp)) hdepth) rfl
  · rw [spread, Bool.eq_false_of_not_eq_true hbracket] at h ⊢
    exact @Doc.Settles.group_of_stop _ [.text "<", name, typeArguments, .indent (.concat _)]
      [.text _] _ h (Doc.stops_line .orNil) rfl

/-- A tag whose bracket is safe **settles**. -/
theorem settles_doc (h : (tag.doc o name typeArguments attributes).IsCandid)
    (hparts : PartsSettle tag name typeArguments attributes) (hsafe : tag.isSafe o = true) :
    (tag.doc o name typeArguments attributes).Settles := by
  have hspread : (tag.spread o name typeArguments attributes).IsCandid →
      (tag.spread o name typeArguments attributes).Settles := fun hcandid =>
    settles_spread hcandid hparts fun hbracket => by simpa [isSafe, hbracket] using hsafe
  rw [doc.eq_def] at h ⊢
  split at h
  · split_ifs at h ⊢ with hbare
    · obtain ⟨hname, harguments⟩ := hparts.name (by simpa using (Bool.and_eq_true_iff.mp hbare).2)
      refine .concat ?_
      simp only [List.forall_mem_cons]
      exact ⟨Doc.settles_text _, hname, harguments, Doc.settles_text _, by simp⟩
    · exact hspread h
  · next lone only hitems =>
    split_ifs at h ⊢ with hlone
    · have hkept : tag.keepsLone = true := by rw [keepsLone, hitems]; exact hlone
      obtain ⟨hname, harguments⟩ := hparts.name (by simpa using (Bool.and_eq_true_iff.mp hlone).2)
      have hlast := hparts.last (by simpa [isSafe, hkept] using hsafe)
      refine .group (.concat ?_) false
      simp only [List.forall_mem_cons]
      exact ⟨Doc.settles_text _, hname, harguments, Doc.settles_text _, hlast only rfl,
        Doc.settles_text _, by simp⟩
    · exact hspread h
  · exact hspread h

/-- The document of an opening tag is **laid out from its parts**. -/
theorem gathers_parts (hhost : host.IsCandid) (ancestors : Ancestors) (tag : OpeningTag) :
    (tag.document o ancestors).Gathers host fun _ doc => ∃ name typeArguments attributes,
      PartsSettle tag name typeArguments attributes ∧
        doc = tag.doc o name typeArguments attributes := by
  obtain ⟨nameText, arguments, items, selfClosing⟩ := tag
  rw [OpeningTag.document]
  refine gathers_bind ((nameText.gathers_settles hhost.comments).imp fun _ name hname => ?_)
  refine gathers_bind ((Verbatim.gathers_settles_optional hhost.comments arguments).imp
    fun _ typeArguments harguments => ?_)
  refine gathers_bind ((Attribute.gathers_last hhost items).imp fun _ attributes hlast =>
    gathers_done ⟨name, typeArguments, attributes, ⟨hlast.1, fun hnone => ?_, hlast.2⟩, rfl⟩)
  obtain ⟨hnone, hnone'⟩ := Bool.or_eq_false_iff.mp hnone
  exact ⟨hname (by simpa using hnone), harguments hnone'⟩

/-- An opening tag whose bracket is safe **ends with it**, and everything held back in the tag is
printed in front of it. -/
theorem closes_document (hhost : host.IsCandid) (ancestors : Ancestors) (tag : OpeningTag)
    (h : tag.isSafe o = true) (s : σ) :
    ((tag.document o ancestors).run host s).value.Closes tag.bracket := by
  have hcandid := (OpeningTag.builds (o := o) hhost.comments ancestors tag).isCandid hhost s
  obtain ⟨name, typeArguments, attributes, hparts, hdoc⟩ :=
    @gathers_parts σ ε host o hhost ancestors tag s
  rw [hdoc] at hcandid ⊢
  exact ⟨endsWith_doc, settles_doc hcandid hparts h⟩

end OpeningTag

/-! ## Tags -/

namespace Tag

theorem closes_closing {name : Doc} (h : name.suffixDepth = 0) : (closing name).Closes ">" :=
  ⟨Doc.endsWith_concat [.text "</", name] List.suffix_rfl, Doc.settles_of_suffixDepth
    (Nat.max_eq_zero_iff.mpr ⟨rfl, Nat.max_eq_zero_iff.mpr ⟨h, rfl⟩⟩)⟩

theorem closes_fragment (start : String) (spaced : Bool) (comments : List Comment) {inside : Doc}
    (h : inside.suffixDepth = 0) : (fragment start spaced comments inside).Closes ">" := by
  refine ⟨Doc.endsWith_concat [.text start, .indent (.concat [_, inside]), _] List.suffix_rfl,
    Doc.settles_of_suffixDepth ?_⟩
  have hbefore : (if comments.any Comment.isLine then Doc.line .hard
      else if spaced && comments.any Comment.isDangling then .text " " else .nil).suffixDepth =
      0 := by
    split_ifs <;> rfl
  have hafter : (if comments.any Comment.isLine then Doc.line .hard else .nil).suffixDepth = 0 := by
    split_ifs <;> rfl
  rw [fragment]
  simp only [Doc.suffixDepth, Doc.maxSuffixDepth, h, hbefore, hafter, Nat.max_self]

end Tag

theorem Tag.gathers_dangling (hhost : host.IsCandid) (comments : List Comment) :
    (question (.dangling comments true)).Gathers host fun _ doc => doc.suffixDepth = 0 :=
  tells_question fun s => by
    rw [show (host.answer s (.dangling comments true)).value = _ from
      hhost.dangling comments true s]
    exact Comment.suffixDepth_dangling comments true

/-! ## Nodes -/

/-- **A safe bracket closes its node**: it is the last text of the node's document, and everything
the node holds back is printed in front of it, wherever the node stands and at every width. -/
theorem Node.closes (hhost : host.IsCandid) (ancestors : Ancestors) (isEmbedded : Bool)
    (node : Node) {bracket : String} (h : node.bracket? o = some bracket) :
    (node.document o ancestors isEmbedded).Gathers host fun _ doc => doc.Closes bracket := by
  cases node with
  | text | markup | emptyExpression => cases h
  | container container =>
    cases h
    rw [Node.document]
    exact Container.closes_document hhost ancestors container
  | spreadChild argument =>
    rw [bracket?] at h
    split_ifs at h with hnone
    cases h
    rw [Node.document]
    exact Brace.closes_document hhost (Bool.eq_false_iff.mpr hnone) _
  | attr item =>
    cases item with
    | bare | valued => cases h
    | spread argument comments =>
      cases comments with
      | cons => cases h
      | nil =>
        rw [bracket?] at h
        split_ifs at h with hnone
        cases h
        rw [Node.document, Attribute.document, ← bind_assoc]
        refine gathers_bind ((Brace.closes_document hhost (Bool.eq_false_iff.mpr hnone) _).imp
          fun _ doc hdoc => ?_)
        refine (gathers_comments_eq hhost.comments [] doc).imp fun _ result hresult => ?_
        rw [hresult]
        exact hdoc
  | openingTag tag =>
    rw [bracket?] at h
    split_ifs at h with hsafe
    cases h
    rw [Node.document]
    exact OpeningTag.closes_document hhost ancestors tag hsafe
  | closingTag name =>
    rw [bracket?] at h
    split_ifs at h with hheld
    cases h
    rw [Node.document]
    exact gathers_bind ((name.gathers_quiet hhost.comments (Bool.eq_false_iff.mpr hheld)).imp
      fun _ _ hname => gathers_done (Tag.closes_closing hname))
  | openingFragment comments =>
    cases h
    rw [Node.document]
    exact gathers_bind ((Tag.gathers_dangling hhost comments).imp fun _ _ hinside =>
      gathers_done (Tag.closes_fragment "<" false comments hinside))
  | closingFragment comments =>
    cases h
    rw [Node.document]
    exact gathers_bind ((Tag.gathers_dangling hhost comments).imp fun _ _ hinside =>
      gathers_done (Tag.closes_fragment "</" true comments hinside))

end Reflow
