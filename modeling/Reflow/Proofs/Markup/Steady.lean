import Reflow.Markup.Comments
import Reflow.Markup.Tag
import Reflow.Proofs.Doc.Steady
import Reflow.Proofs.Markup.Outcome
import Reflow.Proofs.Text.Quote

/-!
# Proofs/Markup/Steady — steady tags, braces and shells

Everything around a steady document keeps it steady.  Two texts may have quotes and braces of their
own, an attribute string and the type arguments of a tag: what stands next to them has none.
-/

namespace Reflow

open Text (Tidy kept isInert isSpacing EndsOpen)

/-! ## Comments -/

namespace Comment

/-- A comment **without quotes and braces**. -/
def isInert (c : Comment) : Bool := Text.isInert c.raw

variable {c : Comment} {comments : List Comment}

/-- An inert comment in front, with **the blank or the line** that parts it from what follows. -/
theorem isCalm_leadingDocs (h : c.isInert = true) : ∀ doc ∈ leadingDocs c, doc.IsCalm := by
  rw [leadingDocs, List.forall_mem_cons, List.forall_mem_singleton]
  refine ⟨Doc.isCalm_text h, ?_⟩
  split_ifs
  · exact Doc.isCalm_line .hard
  · exact Doc.isCalm_text rfl

theorem isCalm_trailingDoc (h : c.isInert = true) : (trailingDoc c).IsCalm := by
  rw [trailingDoc]
  split_ifs
  · refine ⟨.lineSuffix (.concat ?_), by simp [Doc.texts]⟩
    rw [List.forall_mem_cons, List.forall_mem_singleton]
    exact ⟨.text rfl, .text h⟩
  · exact (Doc.isCalm_text rfl).append (Doc.isCalm_text h)

/-- Comments add texts **without quotes and braces** before and after a document. -/
theorem exists_around (h : comments.all isInert = true) {doc : Doc} (hdoc : doc.Agrees) :
    (around comments doc).Agrees ∧ ∃ before after, (∀ t ∈ before, Text.isInert t = true) ∧
      (∀ t ∈ after, Text.isInert t = true) ∧
      (around comments doc).texts false = before ++ (doc.texts false ++ after) := by
  have hcalm {p : Comment → Bool} {c : Comment} (hc : c ∈ comments.filter p) : c.isInert = true :=
    List.all_eq_true.mp h c (List.mem_filter.mp hc).1
  have hleading : (Doc.concat ((comments.filter isLeading).flatMap leadingDocs)).IsCalm := by
    refine .concat fun doc hdoc => ?_
    obtain ⟨c, hc, hdoc⟩ := List.mem_flatMap.mp hdoc
    exact isCalm_leadingDocs (hcalm hc) doc hdoc
  have htrailing : (Doc.concat ((comments.filter isTrailing).map trailingDoc)).IsCalm :=
    .concat (List.forall_mem_map.mpr fun c hc => isCalm_trailingDoc (hcalm hc))
  rw [around]
  split_ifs
  · exact ⟨hdoc, [], [], by simp, by simp, by simp⟩
  · refine ⟨.concat ?_, _, _, hleading.inert, htrailing.inert, by simp⟩
    cases hleading.agrees with
    | concat hleading =>
      cases htrailing.agrees with
      | concat htrailing =>
        rw [List.forall_mem_append, List.forall_mem_append, List.forall_mem_singleton]
        exact ⟨⟨hleading, hdoc⟩, htrailing⟩

/-- Inert comments **on both sides** keep what they stand beside steady. -/
theorem isSteady_around (h : comments.all isInert = true) {doc : Doc} (hdoc : doc.IsSteady) :
    (around comments doc).IsSteady := by
  obtain ⟨hagrees, before, after, hbefore, hafter, htexts⟩ := exists_around h hdoc.agrees
  refine ⟨hagrees, ?_⟩
  rw [htexts]
  exact (Tidy.of_inert hbefore).append (hdoc.tidy.append (.of_inert hafter))

theorem isCalm_around (h : comments.all isInert = true) {doc : Doc} (hdoc : doc.IsCalm) :
    (around comments doc).IsCalm := by
  obtain ⟨hagrees, before, after, hbefore, hafter, htexts⟩ := exists_around h hdoc.agrees
  refine ⟨hagrees, ?_⟩
  rw [htexts, List.forall_mem_append, List.forall_mem_append]
  exact ⟨hbefore, hdoc.inert, hafter⟩

/-- Comments that dangle are calm by themselves, **at either indentation**. -/
theorem isCalm_dangling (h : comments.all isInert = true) (sameIndent : Bool) :
    (dangling comments sameIndent).IsCalm := by
  have hdocs : ∀ doc ∈ (comments.filter isDangling).map fun c => Doc.text c.raw, doc.IsCalm :=
    List.forall_mem_map.mpr fun c hc =>
      Doc.isCalm_text (List.all_eq_true.mp h c (List.mem_filter.mp hc).1)
  have hjoined := Doc.IsCalm.concat (Doc.isCalm_intersperse (Doc.isCalm_line .hard) hdocs)
  rw [dangling.eq_def]
  split
  · exact Doc.isCalm_nil
  · dsimp only
    split_ifs
    · exact hjoined
    · exact ((Doc.isCalm_line .hard).append hjoined).indent

end Comment

/-! ## Tags -/

namespace Doc

/-- A document of **one text that may be anything**, perhaps, between texts without
quotes and braces. -/
structure HoldsOne (doc : Doc) : Prop where
  agrees : doc.Agrees
  texts : ∃ before s after, (∀ t ∈ before, isInert t = true) ∧ (∀ t ∈ after, isInert t = true) ∧
    doc.texts false = before ++ (kept s ++ after)

theorem holdsOne_text (s : String) : (text s).HoldsOne :=
  ⟨.text s, [], s, [], by simp, by simp, (List.append_nil _).symm⟩

theorem holdsOne_nil : nil.HoldsOne := ⟨isCalm_nil.agrees, [], "", [], by simp, by simp, rfl⟩

end Doc

/-- The text that may be of any kind stays **the only one** if comments are put around it. -/
theorem Comment.holdsOne_around {comments : List Comment} (h : comments.all isInert = true)
    {doc : Doc} (hdoc : doc.HoldsOne) : (around comments doc).HoldsOne := by
  obtain ⟨hagrees, before, after, hbefore, hafter, htexts⟩ := exists_around h hdoc.agrees
  obtain ⟨before', s, after', hbefore', hafter', htexts'⟩ := hdoc.texts
  refine ⟨hagrees, before ++ before', s, after' ++ after,
    List.forall_mem_append.mpr ⟨hbefore, hbefore'⟩,
    List.forall_mem_append.mpr ⟨hafter', hafter⟩, ?_⟩
  rw [htexts, htexts']
  simp

namespace OpeningTag

/-- The type arguments of a tag stand **between its name and its attributes**, and its last text is
a bracket. -/
theorem isSteady_of_texts {doc name typeArguments : Doc} {attributes : List Doc} {bracket : String}
    (hdoc : doc.Agrees) (hname : name.IsCalm) (hargs : typeArguments.HoldsOne)
    (hattributes : ∀ doc ∈ attributes, doc.IsSteady) (hbracket : isInert bracket = true)
    (hkept : kept bracket = [bracket])
    (htexts : doc.texts false = "<" :: (name.texts false ++ (typeArguments.texts false ++
      (attributes.flatMap (Doc.texts false) ++ kept bracket)))) : doc.IsSteady := by
  obtain ⟨before, s, after, hbefore, hafter, hone⟩ := hargs.texts
  have hfront : ∀ t ∈ "<" :: (name.texts false ++ before), isInert t = true :=
    List.forall_mem_cons.mpr ⟨rfl, List.forall_mem_append.mpr ⟨hname.inert, hbefore⟩⟩
  have hback : Tidy (after ++ (attributes.flatMap (Doc.texts false) ++ [bracket])) := by
    refine (Tidy.of_inert hafter).append
      (.append ?_ (.of_inert (List.forall_mem_singleton.mpr hbracket)))
    exact .flatMap fun doc hdoc => (hattributes doc hdoc).tidy
  have hsplit : doc.texts false = "<" :: (name.texts false ++ before) ++
      (kept s ++ (after ++ (attributes.flatMap (Doc.texts false) ++ [bracket]))) := by
    rw [htexts, hone, hkept]
    simp
  refine ⟨hdoc, ?_⟩
  rw [hsplit, kept]
  split_ifs
  · exact (Tidy.of_inert hfront).append hback
  · exact Tidy.insert s hfront (by simp) hback (by simp)

variable {o : LanguageOptions} {tag : OpeningTag} {name typeArguments : Doc} {attributes : List Doc}

/-- Between the type arguments and the attributes stand **lines, which have no text**, so the first
attribute is the next that is met. -/
theorem isSteady_spread (hname : name.IsCalm) (hargs : typeArguments.HoldsOne)
    (hattributes : ∀ doc ∈ attributes, doc.IsSteady) :
    (tag.spread o name typeArguments attributes).IsSteady := by
  have hlines : (Doc.concat (attributes.flatMap fun doc => [.line .orSpace, doc])).IsSteady := by
    refine .concat fun doc hdoc => ?_
    obtain ⟨attr, hattr, hdoc⟩ := List.mem_flatMap.mp hdoc
    rw [List.mem_cons, List.mem_singleton] at hdoc
    obtain rfl | rfl := hdoc
    · exact (Doc.isCalm_line .orSpace).isSteady
    · exact hattributes doc hattr
  have hbracket : (if tag.bracketSameLine o then [] else [Doc.line .orNil]).flatMap
      (Doc.texts false) = [] := by
    split_ifs <;> rfl
  have hagrees : ∀ doc ∈ (if tag.bracketSameLine o then [] else [Doc.line .orNil]), doc.Agrees := by
    split_ifs
    · simp
    · exact List.forall_mem_singleton.mpr (.line .orNil)
  refine @isSteady_of_texts _ name typeArguments attributes (if tag.selfClosing then "/>" else ">")
    (.group _ (.concat ?_)) hname hargs hattributes ?_ ?_ ?_
  · simp only [List.forall_mem_append, List.forall_mem_cons]
    exact ⟨⟨⟨.text _, hname.agrees, hargs.agrees, .indent hlines.agrees, by simp⟩, hagrees⟩,
      .text _, by simp⟩
  · split_ifs <;> rfl
  · split_ifs <;> rfl
  · have hopen : Text.kept "<" = ["<"] := rfl
    simp [spread, hbracket, hopen, List.flatMap_assoc]

/-- Whichever layout is chosen, the texts are **the same in the same order**. -/
theorem isSteady_doc (hname : name.IsCalm) (hargs : typeArguments.HoldsOne)
    (hattributes : ∀ doc ∈ attributes, doc.IsSteady) :
    (tag.doc o name typeArguments attributes).IsSteady := by
  have hend : isInert (tag.endOnLine o) = true ∧ kept (tag.endOnLine o) = [tag.endOnLine o] := by
    rw [endOnLine]
    split_ifs
    · exact ⟨rfl, rfl⟩
    · exact ⟨rfl, rfl⟩
    · exact ⟨rfl, rfl⟩
  have hopen : Text.kept "<" = ["<"] := rfl
  have hspread := @isSteady_spread o tag _ _ _ hname hargs hattributes
  rw [doc.eq_def]
  split
  · split_ifs
    · refine @isSteady_of_texts _ name typeArguments [] (tag.endOnLine o) (.concat ?_) hname hargs
        (by simp) hend.1 hend.2 ?_
      · simp only [List.forall_mem_cons]
        exact ⟨.text _, hname.agrees, hargs.agrees, .text _, by simp⟩
      · simp [hopen]
    · exact hspread
  · next only _ =>
    split_ifs
    · refine @isSteady_of_texts _ name typeArguments [only] (tag.endOnLine o)
        (.group _ (.concat ?_)) hname hargs hattributes hend.1 hend.2 ?_
      · simp only [List.forall_mem_cons]
        exact ⟨.text _, hname.agrees, hargs.agrees, .text _, (hattributes only (by simp)).agrees,
          .text _, by simp⟩
      · have hspace : Text.kept " " = [] := rfl
        simp [Doc.grouped, hopen, hspace]
    · exact hspread
  · exact hspread

end OpeningTag

namespace AttributeString

/-- A string that is written out **closes its quote**: it does not end with a space
that lacks its brace. -/
theorem not_endsOpen_written (q : Quote) (value : List Char) : ¬ EndsOpen (written q value) := by
  intro ⟨q', front, hfront⟩
  -- the last quote is the delimiter, and so the one before it is a character of the string
  have hsplit : (front ++ ['{', q'.char, ' ']) ++ [q'.char] =
      (q.char :: encode q value) ++ [q.char] := by
    rw [written] at hfront
    simpa using hfront
  obtain ⟨hstring, hquote⟩ := List.append_inj' hsplit rfl
  rw [List.cons.injEq] at hquote
  rcases front with _ | ⟨c, front⟩
  · exact Text.quote_ne_brace q (List.cons.inj hstring).1.symm
  · refine quote_not_mem_encode q value ?_
    rw [← (List.cons.inj hstring).2, ← hquote.1]
    simp

end AttributeString

namespace Tag

variable {name value inside : Doc}

theorem isCalm_closing (h : name.IsCalm) : (closing name).IsCalm := by
  refine .concat ?_
  simp only [List.forall_mem_cons]
  exact ⟨Doc.isCalm_text rfl, h, Doc.isCalm_text rfl, by simp⟩

theorem isSteady_valued (hname : name.IsCalm) (hvalue : value.IsSteady) :
    (valued name value).IsSteady := by
  refine .concat ?_
  simp only [List.forall_mem_cons]
  exact ⟨hname.isSteady, (Doc.isCalm_text rfl).isSteady, hvalue, by simp⟩

/-- The string of an attribute stands **behind an equals sign**. -/
theorem isSteady_valued_string (hname : name.IsCalm) (q : Quote) (raw : String) :
    (valued name (.text (AttributeString.normalize q raw))).IsSteady := by
  have hfront : ∀ t ∈ name.texts false ++ kept "=", isInert t = true :=
    List.forall_mem_append.mpr ⟨hname.inert, Text.forall_mem_kept rfl⟩
  have hkept : kept "=" = ["="] := rfl
  have htexts : (valued name (.text (AttributeString.normalize q raw))).texts false =
      (name.texts false ++ kept "=") ++ kept (AttributeString.normalize q raw) := by
    simp [valued]
  have hends : ¬ EndsOpen (AttributeString.normalize q raw).toList := by
    rw [AttributeString.normalize, String.toList_ofList]
    exact AttributeString.not_endsOpen_written _ _
  refine ⟨.concat (by simp [hname.agrees, Doc.Agrees.text]), ?_⟩
  rw [htexts]
  generalize AttributeString.normalize q raw = string at hends ⊢
  rw [show kept string = if isSpacing string then [] else [string] from rfl]
  split_ifs
  · rw [List.append_nil]
    exact .of_inert hfront
  · exact Tidy.insert string hfront (by simp [hkept]) .nil fun _ => hends

theorem isCalm_fragment {start : String} (hstart : isInert start = true) (spaced : Bool)
    (comments : List Comment) (hinside : inside.IsCalm) :
    (fragment start spaced comments inside).IsCalm := by
  have hbefore : (if comments.any Comment.isLine then Doc.line .hard
      else if spaced && comments.any Comment.isDangling then .text " " else .nil).IsCalm := by
    split_ifs
    · exact Doc.isCalm_line .hard
    · exact Doc.isCalm_text rfl
    · exact Doc.isCalm_nil
  have hafter : (if comments.any Comment.isLine then Doc.line .hard else .nil).IsCalm := by
    split_ifs
    · exact Doc.isCalm_line .hard
    · exact Doc.isCalm_nil
  refine .concat ?_
  simp only [List.forall_mem_cons]
  refine ⟨Doc.isCalm_text hstart, .indent (.concat ?_), hafter, Doc.isCalm_text rfl, by simp⟩
  simp only [List.forall_mem_cons]
  exact ⟨hbefore, hinside, by simp⟩

end Tag

/-! ## Braces -/

namespace Brace

variable {inside : Doc}

/-- Steady contents **in braces** are steady. -/
theorem isSteady_of_texts {doc : Doc} (hdoc : doc.Agrees) (hinside : inside.IsSteady)
    (htexts : doc.texts false = kept "\x7b" ++ (inside.texts false ++ kept "\x7d")) :
    doc.IsSteady := by
  refine ⟨hdoc, ?_⟩
  rw [htexts]
  exact hinside.tidy.braced

theorem isSteady_hugging (h : inside.IsSteady) : (hugging inside).IsSteady := by
  refine isSteady_of_texts (.group _ (.concat ?_)) h (by simp [hugging, Doc.grouped])
  simp only [List.forall_mem_cons]
  exact ⟨.text _, h.agrees, .suffixBoundary, .text _, by simp⟩

theorem isSteady_apart (h : inside.IsSteady) : (apart inside).IsSteady := by
  refine isSteady_of_texts (.group _ (.concat ?_)) h (by simp [apart, Doc.grouped])
  simp only [List.forall_mem_cons]
  exact ⟨.text _, .indent ((Doc.Agrees.line _).append h.agrees), .line _, .suffixBoundary, .text _,
    by simp⟩

theorem isSteady_spread (h : inside.IsSteady) : (spread inside).IsSteady := by
  refine isSteady_of_texts (.concat ?_) h (by simp [spread])
  simp only [List.forall_mem_cons]
  exact ⟨.text _, h.agrees, .text _, by simp⟩

theorem isSteady_commented (h : inside.IsSteady) : (commented inside).IsSteady := by
  refine .concat ?_
  simp only [List.forall_mem_cons]
  exact ⟨.indent ((Doc.isCalm_line _).isSteady.append h), (Doc.isCalm_line _).isSteady, by simp⟩

theorem isCalm_onlyComments (ownLines : Bool) (h : inside.IsCalm) :
    (onlyComments ownLines inside).IsCalm := by
  rw [onlyComments]
  split_ifs
  · exact h.append (Doc.isCalm_line .hard)
  · exact h

end Brace

end Reflow
