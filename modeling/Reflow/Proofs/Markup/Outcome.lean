import Reflow.Markup.Body
import Reflow.Proofs.Doc.Lineless
import Reflow.Proofs.Markup.Row
import Reflow.Proofs.Text.Lexeme

/-!
# Proofs/Markup/Outcome — what a shell prints around its children

On one line or on lines of their own, the parts of the children come out one after the other, and
each in one of few forms (`Part.Prints`).  A space that matters is printed plain only where no line
break is next to it.
-/

namespace Reflow

open Piece (IsBreak)
open Lexeme (spelling)

namespace Doc

/-- The empty content at the end of a fill prints nothing. -/
theorem prints_fill_of_append {docs : List Doc} {last : Doc} (hlast : last.PrintsOnly [])
    {mode : Mode} {cs : List Char} (h : (fill (docs ++ [last])).Prints mode cs) :
    (fill docs).Prints mode cs := by
  induction docs generalizing cs with
  | nil =>
    obtain ⟨inner, xs, ys, rfl, hx, hy⟩ := prints_fill_cons.mp h
    rw [hlast _ _ hx]
    exact hy
  | cons doc docs ih =>
    obtain ⟨inner, xs, ys, rfl, hx, hy⟩ := prints_fill_cons.mp h
    exact .fillCons inner hx (ih hy)

end Doc

namespace SpaceStyle

@[simp] theorem toList_spelled (o : LanguageOptions) :
    (inMarkup o).spelled.toList = spelling o.quotes :=
  String.toList_ofList

/-- The separator that is a space is **plain, or spelled out** before a line break. -/
theorem prints_doc {o : LanguageOptions} {mode : Mode} {cs : List Char}
    (h : (inMarkup o).doc.Prints mode cs) :
    cs = [' '] ∨ ∃ later, IsBreak later ∧ cs = spelling o.quotes ++ later := by
  cases mode with
  | flat => exact .inl (Doc.prints_text.mp (Doc.prints_ifBreak_flat.mp h))
  | broken =>
    right
    have hbroken := Doc.prints_ifBreak_broken.mp h
    simp only [Doc.text_append, Doc.prints_concat_cons, Doc.prints_concat_nil, Doc.prints_text,
      Doc.prints_line_broken, String.toList_ofList] at hbroken
    obtain ⟨_, _, rfl, rfl, later, _, rfl, hlater, rfl⟩ := hbroken
    exact ⟨later, hlater, by rw [List.append_nil, spelling]⟩

end SpaceStyle

namespace Part

/-- What a part may be **printed as** between its neighbours. -/
inductive Prints (q : Quote) : Part → List Char → Prop
  | empty : Prints q .empty []
  | word (s : String) : Prints q (.word s) s.toList
  | printed {doc : Doc} {mode : Mode} {cs : List Char} (h : doc.Prints mode cs) :
      Prints q (.printed doc) cs
  | space : Prints q .space [' ']
  | spelled {later : List Char} (h : IsBreak later) : Prints q .space (spelling q ++ later)
  | orSpace : Prints q (.line .orSpace) [' ']
  | orNil : Prints q (.line .orNil) []
  | break (kind : LineKind) {run : List Char} (h : IsBreak run) : Prints q (.line kind) run

/-- Parts printed **one after the other**, before nothing or the break of the closing tag.  A plain
space does not stand before that break. -/
inductive Run (q : Quote) : List Part → List Char → Prop
  | done {run : List Char} (h : run = [] ∨ IsBreak run) : Run q [] run
  | cons {part : Part} {parts : List Part} {cs ds : List Char} (h : part.Prints q cs)
      (hs : Run q parts ds) (plain : part = .space → cs = [' '] → parts = [] → ds = []) :
      Run q (part :: parts) (cs ++ ds)

/-- **What stands between the tags**: the parts on one line, or on lines of their own, where a space
before the first content is spelled out. -/
inductive Body (q : Quote) (parts : List Part) : List Char → Prop
  | onOneLine {cs : List Char} (h : Run q parts cs) : Body q parts cs
  | onLines {lead cs : List Char} (hl : IsBreak lead) (h : Run q parts cs)
      (hspace : startsSpace parts = true → ∃ rest, cs = spelling q ++ rest) :
      Body q parts (lead ++ cs)

/-! ## On one line -/

variable {o : LanguageOptions} {mode : Mode} {cs : List Char}

theorem prints_of_doc {part : Part} (h : (part.doc (SpaceStyle.inMarkup o).doc).Prints mode cs) :
    part.Prints o.quotes cs := by
  rcases part with _ | s | _ | kind | doc
  · rw [doc, Doc.prints_text] at h
    subst h
    exact .empty
  · rw [doc, Doc.prints_text] at h
    subst h
    exact .word s
  · obtain rfl | ⟨later, hlater, rfl⟩ := SpaceStyle.prints_doc h
    · exact .space
    · exact .spelled hlater
  · rcases h with _ | _ | _ | _
    · exact .break .hard ‹_›
    · exact .break kind ‹_›
    · exact .orSpace
    · exact .orNil
  · exact .printed h

theorem run_of_flatDoc {parts : List Part}
    (h : (flatDoc (SpaceStyle.inMarkup o) parts).Prints mode cs) : Run o.quotes parts cs := by
  induction parts generalizing cs with
  | nil => exact .done (.inl (Doc.prints_concat_nil.mp h))
  | cons part parts ih =>
    obtain ⟨xs, ys, rfl, hx, hy⟩ := Doc.prints_concat_cons.mp h
    refine .cons (prints_of_doc hx) (ih hy) ?_
    rintro - - rfl
    exact Doc.prints_concat_nil.mp hy

/-! ## On lines of their own -/

/-- Parts on lines of their own are **printed in turn**, whether they are wrapped or not. -/
theorem prints_content {hasText : Bool} {lines : List (Doc × Bool)}
    (h : (Shell.content hasText lines).Prints mode cs) :
    (Doc.fill (lines.map Prod.fst)).Prints mode cs := by
  rw [Shell.content.eq_def] at h
  split_ifs at h
  · rw [Doc.filled] at h
    split_ifs at h
    · exact Doc.prints_fill_of_append (Doc.printsOnly_ownText (.text "") rfl) h
    · exact h
  · obtain ⟨inner, h⟩ := Doc.prints_group.mp h
    exact h.toFill mode

/-- A space is spelled out **alone or before a hard line**. -/
theorem spelledSpace_cases {style : SpaceStyle} {beforeThat before : Option Part} {isLast : Bool}
    {doc : Doc} (h : spelledSpace style beforeThat before isLast = some doc) :
    doc = .text style.spelled ∨ doc = Doc.text style.spelled ++ Doc.line .hard := by
  rw [spelledSpace.eq_def] at h
  split at h
  · exact .inl (Option.some.inj h).symm
  · exact .inr (Option.some.inj h).symm
  · exact .inl (Option.some.inj h).symm
  · exact .inl (Option.some.inj h).symm
  · cases h

/-- After a content a space is spelled out only at the end. -/
theorem spelledSpace_of_isFilled (style : SpaceStyle) (beforeThat : Option Part) {content : Part}
    (h : content.isFilled) (isLast : Bool) :
    spelledSpace style beforeThat (some content) isLast =
      if isLast then some (.text style.spelled) else none := by
  have hne := ne_empty_of_isFilled h
  rw [spelledSpace.eq_def]
  split <;> simp_all

/-- A part that is no space is printed as it is. -/
theorem multilineDoc_fst {style : SpaceStyle} {part : Part} (h : part ≠ .space)
    (beforeThat before : Option Part) (isLast : Bool) :
    (multilineDoc style beforeThat before part isLast).1 = part.doc style.doc := by
  rcases part with _ | _ | _ | _ | _
  · rfl
  · rfl
  · exact absurd rfl h
  · rfl
  · rfl

theorem multilineDoc_space (style : SpaceStyle) (beforeThat : Option Part) {content : Part}
    (h : content.isFilled) (isLast : Bool) :
    (multilineDoc style beforeThat (some content) .space isLast).1 =
      if isLast then .text style.spelled else style.doc := by
  rw [multilineDoc, spelledSpace_of_isFilled style beforeThat h]
  cases isLast <;> rfl

theorem ne_space_of_isFilled {part : Part} (h : part.isFilled) : part ≠ .space := by
  rintro rfl
  cases h

/-- The documents of parts on lines of their own, wrapped. -/
abbrev linesFill (o : LanguageOptions) (beforeThat before : Option Part)
    (parts : List Part) : Doc :=
  .fill ((multilineDocsAfter (SpaceStyle.inMarkup o) beforeThat before parts).map Prod.fst)

variable {beforeThat before : Option Part} {tail : List Char}

theorem linesFill_cons {part : Part} {rest : List Part}
    (h : (linesFill o beforeThat before (part :: rest)).Prints mode cs) :
    ∃ inner xs ys, cs = xs ++ ys ∧
      (multilineDoc (SpaceStyle.inMarkup o) beforeThat before part rest.isEmpty).1.Prints inner xs ∧
      (linesFill o before (some part) rest).Prints mode ys :=
  Doc.prints_fill_cons.mp h

/-- A part that is no space, in front of parts that are printed in turn. -/
theorem run_cons_of_linesFill {part : Part} {rest : List Part} (hpart : part ≠ .space)
    (h : (linesFill o beforeThat before (part :: rest)).Prints mode cs)
    (hrest : ∀ ds, (linesFill o before (some part) rest).Prints mode ds →
      Run o.quotes rest (ds ++ tail)) :
    Run o.quotes (part :: rest) (cs ++ tail) := by
  obtain ⟨inner, xs, ys, rfl, hx, hy⟩ := linesFill_cons h
  rw [multilineDoc_fst hpart] at hx
  rw [List.append_assoc]
  exact .cons (prints_of_doc hx) (hrest ys hy) fun hspace => absurd hspace hpart

theorem IsLoose.ne_space {part : Part} (h : IsLoose part) : part ≠ .space := by
  obtain rfl | rfl | rfl := h <;> simp

theorem run_append_of_linesFill {separators rest : List Part}
    (hloose : ∀ separator ∈ separators, IsLoose separator)
    (h : (linesFill o beforeThat before (separators ++ rest)).Prints mode cs)
    (hrest : ∀ beforeThat before ds, (linesFill o beforeThat before rest).Prints mode ds →
      Run o.quotes rest (ds ++ tail)) :
    Run o.quotes (separators ++ rest) (cs ++ tail) := by
  induction separators generalizing beforeThat before cs with
  | nil => exact hrest _ _ _ h
  | cons separator separators ih =>
    obtain ⟨hseparator, hloose⟩ := List.forall_mem_cons.mp hloose
    exact run_cons_of_linesFill hseparator.ne_space h fun ds hds => ih hloose hds

/-- A **row on lines of its own** is printed in turn, before the break of the closing tag. -/
theorem Row.run {parts : List Part} (hrow : Row parts) (ht : IsBreak tail)
    (h : (linesFill o beforeThat before parts).Prints mode cs) :
    Run o.quotes parts (cs ++ tail) := by
  induction hrow generalizing beforeThat before cs with
  | last filled =>
    refine run_cons_of_linesFill (ne_space_of_isFilled filled) h fun ds hds => ?_
    rw [Doc.prints_fill_nil.mp hds]
    exact .done (.inr ht)
  | lastSpace filled =>
    refine run_cons_of_linesFill (ne_space_of_isFilled filled) h fun ds hds => ?_
    obtain ⟨inner, xs, ys, rfl, hx, hy⟩ := linesFill_cons hds
    rw [multilineDoc_space _ _ filled, if_pos (by rfl), Doc.prints_text,
      SpaceStyle.toList_spelled] at hx
    rw [Doc.prints_fill_nil.mp hy, hx, List.append_nil, ← List.append_nil (_ ++ tail)]
    exact .cons (.spelled ht) (.done (.inl rfl)) fun _ _ _ => rfl
  | @space content rest filled hrow ih =>
    refine run_cons_of_linesFill (ne_space_of_isFilled filled) h fun ds hds => ?_
    obtain ⟨inner, xs, ys, rfl, hx, hy⟩ := linesFill_cons hds
    rw [multilineDoc_space _ _ filled, if_neg (by simp [hrow.ne_nil])] at hx
    rw [List.append_assoc]
    exact .cons (prints_of_doc hx) (ih hy) fun _ _ hnil => absurd hnil hrow.ne_nil
  | inText _ ih =>
    refine run_cons_of_linesFill (by simp) h fun ds hds => ?_
    exact run_cons_of_linesFill (by simp) hds fun es hes => ih hes
  | loose filled hloose _ ih =>
    refine run_cons_of_linesFill (ne_space_of_isFilled filled) h fun ds hds => ?_
    exact run_append_of_linesFill hloose hds fun _ _ es hes => ih hes

/-- A space **before everything else** is spelled out. -/
theorem Spaced.run {parts : List Part} (h : Spaced parts) (ht : IsBreak tail)
    (hprints : (linesFill o none none parts).Prints mode cs) :
    Run o.quotes parts (cs ++ tail) ∧ ∃ rest, cs ++ tail = spelling o.quotes ++ rest := by
  have hempty : (multilineDoc (SpaceStyle.inMarkup o) none none .empty false).1.PrintsOnly [] :=
    Doc.printsOnly_ownText (.text "") rfl
  cases h with
  | alone =>
    obtain ⟨_, xs, ys, rfl, hx, hy⟩ := linesFill_cons hprints
    obtain ⟨_, zs, ws, rfl, hz, hw⟩ := linesFill_cons hy
    obtain rfl := hempty _ _ hx
    obtain rfl := Doc.prints_fill_nil.mp hw
    rw [List.isEmpty_nil, multilineDoc, spelledSpace, Doc.prints_text,
      SpaceStyle.toList_spelled] at hz
    have hspace : Run o.quotes [.space] (spelling o.quotes ++ tail ++ []) :=
      .cons (.spelled ht) (.done (.inl rfl)) fun _ _ _ => rfl
    have hrun : Run o.quotes [.empty, .space] ([] ++ (spelling o.quotes ++ tail ++ [])) :=
      .cons .empty hspace (by simp)
    rw [hz]
    exact ⟨by simpa using hrun, tail, by simp⟩
  | @row rest hrow =>
    obtain ⟨_, xs, ys, rfl, hx, hy⟩ := linesFill_cons hprints
    obtain ⟨_, zs, ws, rfl, hz, hw⟩ := linesFill_cons hy
    obtain rfl := hempty _ _ hx
    have hlast : rest.isEmpty = false := by simp [hrow.ne_nil]
    rw [hlast, multilineDoc, spelledSpace] at hz
    simp only [Doc.text_append, Doc.prints_concat_cons, Doc.prints_concat_nil, Doc.prints_text,
      SpaceStyle.toList_spelled, Doc.prints_hard] at hz
    obtain ⟨_, _, rfl, rfl, later, _, rfl, hlater, rfl⟩ := hz
    have hspace : Run o.quotes (.space :: rest) (spelling o.quotes ++ later ++ (ws ++ tail)) :=
      .cons (.spelled hlater) (hrow.run ht hw) fun _ _ hnil => absurd hnil hrow.ne_nil
    have hrun : Run o.quotes (.empty :: .space :: rest)
        ([] ++ (spelling o.quotes ++ later ++ (ws ++ tail))) := .cons .empty hspace (by simp)
    exact ⟨by simpa using hrun, later ++ (ws ++ tail), by simp⟩

/-- What is laid out is a **body** on lines of its own. -/
theorem body_of_linesFill {parts : List Part} (hparts : parts = [] ∨ Row parts ∨ Spaced parts)
    {lead : List Char} (hl : IsBreak lead) (ht : IsBreak tail)
    (h : (linesFill o none none parts).Prints mode cs) :
    Body o.quotes parts (lead ++ (cs ++ tail)) := by
  obtain rfl | hrow | hspaced := hparts
  · obtain rfl := Doc.prints_fill_nil.mp h
    exact .onLines hl (.done (.inr ht)) (by simp [startsSpace])
  · exact .onLines hl (hrow.run ht h) (by simp [hrow.startsSpace_eq_false])
  · obtain ⟨hrun, hspace⟩ := hspaced.run ht h
    exact .onLines hl hrun fun _ => hspace

end Part

namespace Shell

open Reflow.Part

variable {o : LanguageOptions} {mode : Mode} {cs opening closing : List Char} {shell : Shell}

/-- The tags of a shell, printed. -/
structure PrintsTags (shell : Shell) (opening closing : List Char) : Prop where
  opening : shell.opening.PrintsOnly opening
  closing : shell.closingDoc.PrintsOnly closing

theorem prints_onOneLine {flat : Doc} (htags : shell.PrintsTags opening closing)
    (h : (shell.onOneLine flat).Prints mode cs) :
    ∃ inner body, cs = opening ++ (body ++ closing) ∧ flat.Prints inner body := by
  simp only [onOneLine, Doc.grouped, Doc.prints_group, Doc.prints_concat_cons,
    Doc.prints_concat_nil] at h
  obtain ⟨inner, xs, _, rfl, hx, body, _, rfl, hbody, ys, _, rfl, hy, rfl⟩ := h
  rw [htags.opening _ _ hx, htags.closing _ _ hy, List.append_nil]
  exact ⟨inner, body, rfl, hbody⟩

theorem prints_multiline {content : Doc} (htags : shell.PrintsTags opening closing)
    (h : (shell.multiline content).Prints mode cs) :
    ∃ inner lead body tail, cs = opening ++ (lead ++ (body ++ tail) ++ closing) ∧ IsBreak lead ∧
      IsBreak tail ∧ content.Prints inner body := by
  simp only [multiline, Doc.grouped, Doc.prints_group, Doc.prints_concat_cons,
    Doc.prints_concat_nil, Doc.prints_indent, Doc.line_append, Doc.prints_hard] at h
  obtain ⟨inner, xs, _, rfl, hx, _, _, rfl, ⟨lead, _, rfl, hlead, body, _, rfl, hbody, rfl⟩, tail,
    _, rfl, htail, ys, _, rfl, hy, rfl⟩ := h
  rw [htags.opening _ _ hx, htags.closing _ _ hy]
  exact ⟨inner, lead, body, tail, by simp, hlead, htail, hbody⟩

/-- What a shell prints **around its children** is a body between its tags. -/
theorem prints_around {children : List Child} (htags : shell.PrintsTags opening closing)
    (h : (shell.around o false children).Prints mode cs) :
    ∃ body, cs = opening ++ (body ++ closing) ∧
      Body o.quotes (arrange shell.isLocalized (children.any Child.isMeaningfulText) children)
        body := by
  set parts := arrange shell.isLocalized (children.any Child.isMeaningfulText) children
    with hparts
  set lines := multilineDocs (SpaceStyle.inMarkup o) parts with hlines
  have hmulti {inner : Mode} (hp : (shell.multiline (content
      (children.any Child.isMeaningfulText) lines)).Prints inner cs) :
      ∃ body, cs = opening ++ (body ++ closing) ∧ Body o.quotes parts body := by
    obtain ⟨inner, lead, body, tail, rfl, hlead, htail, hbody⟩ := prints_multiline htags hp
    exact ⟨_, rfl, body_of_linesFill (arrange_cases shell.isLocalized children).1 hlead htail
      (prints_content hbody)⟩
  rw [around] at h
  simp only [SpaceStyle.of, Bool.false_eq_true, if_false, ← hparts, ← hlines] at h
  split_ifs at h
  · exact hmulti h
  · obtain ⟨variant, hmem, inner, hp⟩ := Doc.prints_conditional_cons.mp h
    rw [List.mem_cons, List.mem_singleton] at hmem
    obtain rfl | rfl := hmem
    · obtain ⟨inner, body, rfl, hbody⟩ := prints_onOneLine htags hp
      exact ⟨body, rfl, .onOneLine (run_of_flatDoc hbody)⟩
    · exact hmulti hp

/-- Without content there is **nothing to lay out**. -/
theorem arrange_of_noContent (localized hasText : Bool) {children : List Child}
    (h : Child.noContent children = true) : arrange localized hasText children = [] := by
  unfold Child.noContent at h
  split at h
  · rfl
  · next raw =>
    obtain ⟨run, hof, hspans⟩ := (TextContent.isMeaningful_eq_false_iff raw).mp (by simpa using h)
    rw [arrange, ofChildren, ofChildren, ofChild, hof]
    rcases run with _ | _ | _
    · cases hspans
    · rfl
    · rfl
  · cases h

/-- What a shell **prints** is a body between its tags. -/
theorem prints_doc {children : List Child} (htags : shell.PrintsTags opening closing)
    (h : (shell.doc o false children).Prints mode cs) :
    ∃ body, cs = opening ++ (body ++ closing) ∧
      Body o.quotes (arrange shell.isLocalized (children.any Child.isMeaningfulText) children)
        body := by
  rw [doc.eq_def] at h
  split_ifs at h with hnone
  · rw [Bool.and_eq_true] at hnone
    rw [arrange_of_noContent _ _ hnone.2]
    refine ⟨[], ?_, .onOneLine (.done (.inl rfl))⟩
    have hclosing := htags.closing
    rw [empty] at h
    rw [closingDoc] at hclosing
    cases hc : shell.closing with
    | none =>
      rw [hc] at h hclosing
      rw [htags.opening _ _ h, ← hclosing mode [] (.nil mode)]
      simp
    | some closingTag =>
      rw [hc] at h hclosing
      obtain ⟨xs, ys, rfl, hx, hy⟩ := Doc.prints_append.mp h
      rw [htags.opening _ _ hx, hclosing _ _ hy, List.nil_append]
  · split at h
    · next template =>
      simp only [Doc.prints_concat_cons, Doc.prints_concat_nil] at h
      obtain ⟨xs, _, rfl, hx, body, _, rfl, hbody, ys, _, rfl, hy, rfl⟩ := h
      rw [htags.opening _ _ hx, htags.closing _ _ hy, List.append_nil]
      refine ⟨body, rfl, .onOneLine ?_⟩
      rw [← List.append_nil body]
      exact .cons (.printed hbody) (.done (.inl rfl)) (by simp)
    · exact prints_around htags h

/-! ## Nothing held back

Tags and children that hold nothing back make a shell that does not either. -/

theorem suffixDepth_partDoc {part : Part}
    (h : ∀ doc, part = .printed doc → doc.suffixDepth = 0) :
    (part.doc (SpaceStyle.inMarkup o).doc).suffixDepth = 0 := by
  rcases part with _ | _ | _ | _ | doc
  · rfl
  · rfl
  · rfl
  · rfl
  · exact h doc rfl

theorem suffixDepth_multilineDoc {part : Part} (beforeThat before : Option Part) (isLast : Bool)
    (h : ∀ doc, part = .printed doc → doc.suffixDepth = 0) :
    (multilineDoc (SpaceStyle.inMarkup o) beforeThat before part isLast).1.suffixDepth = 0 := by
  by_cases hpart : part = .space
  · subst hpart
    rw [multilineDoc]
    split
    · next doc hdoc =>
      obtain rfl | rfl := spelledSpace_cases hdoc <;> rfl
    · rfl
  · rw [multilineDoc_fst hpart]
    exact suffixDepth_partDoc h

theorem suffixDepth_multilineDocs {parts : List Part}
    (h : ∀ doc, .printed doc ∈ parts → doc.suffixDepth = 0) (beforeThat before : Option Part) :
    ∀ line ∈ multilineDocsAfter (SpaceStyle.inMarkup o) beforeThat before parts,
      line.1.suffixDepth = 0 := by
  induction parts generalizing beforeThat before with
  | nil => simp [multilineDocsAfter]
  | cons part parts ih =>
    rw [multilineDocsAfter, List.forall_mem_cons]
    refine ⟨suffixDepth_multilineDoc _ _ _ ?_, ih (fun doc hdoc => h doc (by simp [hdoc])) _ _⟩
    rintro doc rfl
    exact h doc List.mem_cons_self

theorem suffixDepth_content (hasText : Bool) {lines : List (Doc × Bool)}
    (h : ∀ line ∈ lines, line.1.suffixDepth = 0) : (content hasText lines).suffixDepth = 0 := by
  have hdocs : ∀ doc ∈ lines.map Prod.fst, doc.suffixDepth = 0 := List.forall_mem_map.mpr h
  rw [content.eq_def]
  split_ifs
  · rw [Doc.filled]
    split_ifs
    · rw [Doc.suffixDepth, Doc.maxSuffixDepth_eq_zero_iff, List.forall_mem_append]
      exact ⟨hdocs, by simp [Doc.suffixDepth]⟩
    · rw [Doc.suffixDepth, Doc.maxSuffixDepth_eq_zero_iff]
      exact hdocs
  · rw [Doc.suffixDepth, Doc.suffixDepth, Doc.maxSuffixDepth_eq_zero_iff]
    exact hdocs

theorem suffixDepth_multiline {content : Doc} (hopening : shell.opening.suffixDepth = 0)
    (hclosing : shell.closingDoc.suffixDepth = 0) (hcontent : content.suffixDepth = 0) :
    (shell.multiline content).suffixDepth = 0 := by
  simp [multiline, Doc.grouped, Doc.line_append, Doc.suffixDepth, Doc.maxSuffixDepth, hopening,
    hclosing, hcontent]

theorem suffixDepth_around {children : List Child} (hopening : shell.opening.suffixDepth = 0)
    (hclosing : shell.closingDoc.suffixDepth = 0)
    (hparts : ∀ doc, .printed doc ∈ arrange shell.isLocalized
      (children.any Child.isMeaningfulText) children → doc.suffixDepth = 0) :
    (shell.around o false children).suffixDepth = 0 := by
  have hlines := @suffixDepth_multilineDocs o _ hparts none none
  have hmulti := fun hasText =>
    suffixDepth_multiline hopening hclosing (suffixDepth_content hasText hlines)
  have hflat : (flatDoc (SpaceStyle.inMarkup o) (arrange shell.isLocalized
      (children.any Child.isMeaningfulText) children)).suffixDepth = 0 := by
    rw [flatDoc, Doc.suffixDepth, Doc.maxSuffixDepth_eq_zero_iff, List.forall_mem_map]
    rintro part hpart
    exact suffixDepth_partDoc fun doc hdoc => hparts doc (hdoc ▸ hpart)
  rw [around]
  simp only [SpaceStyle.of, Bool.false_eq_true, if_false]
  split_ifs
  · exact hmulti _
  · simp [onOneLine, Doc.grouped, Doc.suffixDepth, Doc.maxSuffixDepth, hopening, hclosing, hflat,
      multilineDocs, hmulti]

theorem suffixDepth_doc {children : List Child} (hopening : shell.opening.suffixDepth = 0)
    (hclosing : shell.closingDoc.suffixDepth = 0)
    (hchildren : ∀ kind doc, Child.printed kind doc ∈ children → doc.suffixDepth = 0) :
    (shell.doc o false children).suffixDepth = 0 := by
  have hparts : ∀ doc, .printed doc ∈ arrange shell.isLocalized
      (children.any Child.isMeaningfulText) children → doc.suffixDepth = 0 := fun doc hdoc => by
    obtain ⟨kind, hmem⟩ := exists_printed_of_mem_arrange hdoc
    exact hchildren kind doc hmem
  rw [doc.eq_def]
  split_ifs
  · rw [empty]
    cases hc : shell.closing with
    | none => exact hopening
    | some closing =>
      rw [closingDoc, hc] at hclosing
      exact Doc.suffixDepth_append_eq_zero hopening hclosing
  · split
    · next template =>
      have htemplate := hchildren _ _ List.mem_cons_self
      simp [Doc.suffixDepth, Doc.maxSuffixDepth, hopening, htemplate, hclosing]
    · exact suffixDepth_around hopening hclosing hparts

end Shell

end Reflow
