import Reflow.Proofs.Markup.Outcome

/-!
# Proofs/Markup/SetOut — a body reads as its parts

The parts of a row are contents with gaps between them, and each gap is one of those that read as
the parts do.  What makes this work at the loose separators is that two words never stand next to
each other without a space (`Lexeme.Separated`).
-/

namespace Reflow

open Piece (IsBreak)
open Lexeme (Gap Sets Separated IsOwn spelling)

namespace Content

/-- What a content is read as once it is printed. -/
def lexeme : Content → Lexeme
  | word s => .word s.toList
  | printed doc => .child doc.ownText

/-- A content that is **read back from its text**. -/
def IsReadable : Content → Prop
  | word s => Text.IsWord s.toList ∧ ∀ c ∈ s.toList, Lexeme.IsPlain c
  | printed doc => IsOwn doc.ownText ∧ doc.isLineless = true

end Content

namespace Part

/-- Parts, read as the lexemes they are printed as. -/
def readLexemes (parts : List Part) : Reading Lexeme := (read parts).map Content.lexeme

/-! ## Reading part by part -/

theorem readLexemes_cons (part : Part) (parts : List Part) :
    readLexemes (part :: parts) =
      .ofMarks (part.marks.map (Mark.map Content.lexeme) ++
        (parts.flatMap marks).map (Mark.map Content.lexeme)) := by
  rw [readLexemes, read_cons, Reading.map_ofMarks, List.map_append]

theorem readLexemes_of_isLoose {separators : List Part}
    (h : ∀ separator ∈ separators, IsLoose separator) (rest : List Part) :
    readLexemes (separators ++ rest) = readLexemes rest := by
  induction separators with
  | nil => rfl
  | cons separator separators ih =>
    obtain ⟨hseparator, hothers⟩ := List.forall_mem_cons.mp h
    rw [List.cons_append, ← ih hothers, readLexemes_cons, hseparator.marks_eq_nil,
      readLexemes, read, Reading.map_ofMarks]
    rfl

theorem readLexemes_space (rest : List Part) :
    readLexemes (.space :: rest) = (readLexemes rest).consSpace :=
  Reading.map_consSpace _ _

theorem readLexemes_orSpace (rest : List Part) :
    readLexemes (.line .orSpace :: rest) = (readLexemes rest).consSpace :=
  Reading.map_consSpace _ _

/-- Whether a row starts with a word. -/
def startsWord (parts : List Part) : Bool :=
  match parts with
  | word _ :: _ => true
  | _ => false

/-- A **content**: what is read, and what may be printed. -/
theorem exists_lexeme_of_isFilled {content : Part} (filled : content.isFilled) (q : Quote) :
    ∃ x : Lexeme, (∀ rest, readLexemes (content :: rest) = (readLexemes rest).consItem x) ∧
      (∀ rest, startsWord (content :: rest) = x.isWord) ∧
      ((∀ c ∈ content.content?, c.IsReadable) →
        ∀ cs, content.Prints q cs → Lexeme.IsContent x cs) := by
  rcases content with _ | s | _ | _ | doc
  · cases filled
  · refine ⟨.word s.toList, fun _ => rfl, fun _ => rfl, ?_⟩
    rintro hc cs ⟨⟩
    obtain ⟨hword, hplain⟩ := hc (.word s) rfl
    exact .word hword hplain
  · cases filled
  · cases filled
  · refine ⟨.child doc.ownText, fun _ => rfl, fun _ => rfl, ?_⟩
    intro hc cs h
    obtain ⟨hown, hline⟩ := hc (.printed doc) rfl
    cases h with
    | printed h =>
      rw [doc.printsOnly_ownText hline _ _ h]
      exact .child hown

theorem Row.exists_lexeme {parts : List Part} (h : Row parts) :
    ∃ x r, readLexemes parts = Reading.consItem x r ∧ startsWord parts = x.isWord := by
  have hfirst {content : Part} (rest : List Part) (filled : content.isFilled) :
      ∃ x r, readLexemes (content :: rest) = Reading.consItem x r ∧
        startsWord (content :: rest) = x.isWord := by
    obtain ⟨x, hread, hword, -⟩ := exists_lexeme_of_isFilled filled .double
    exact ⟨x, _, hread rest, hword rest⟩
  rcases h with filled | filled | ⟨filled, -⟩ | - | ⟨filled, -, -⟩
  · exact hfirst _ filled
  · exact hfirst _ filled
  · exact hfirst _ filled
  · exact hfirst _ rfl
  · exact hfirst _ filled

/-! ## Gaps -/

variable {q : Quote} {cs ds : List Char}

theorem isBreak_append {run later : List Char} (h : IsBreak run) (h' : later = [] ∨ IsBreak later) :
    IsBreak (run ++ later) := by
  refine ⟨List.mem_append_left _ h.1, ?_⟩
  obtain rfl | h' := h'
  · rw [List.append_nil]
    exact h.2
  · exact h.2.append h'.2

/-- Loose separators come out as **nothing or a line break**. -/
theorem exists_run_of_isLoose {separators rest : List Part}
    (h : ∀ separator ∈ separators, IsLoose separator) (hrun : Run q (separators ++ rest) cs) :
    ∃ run ds, cs = run ++ ds ∧ (run = [] ∨ IsBreak run) ∧ Run q rest ds := by
  induction separators generalizing cs with
  | nil => exact ⟨[], cs, rfl, .inl rfl, hrun⟩
  | cons separator separators ih =>
    obtain ⟨hseparator, hothers⟩ := List.forall_mem_cons.mp h
    cases hrun with
    | @cons _ _ xs ys hx hy _ =>
      obtain ⟨run, ds, rfl, hgap, hds⟩ := ih hothers hy
      have hxs : xs = [] ∨ IsBreak xs := by
        obtain rfl | rfl | rfl := hseparator
        · cases hx
          exact .inl rfl
        · cases hx with
          | orNil => exact .inl rfl
          | «break» _ hbreak => exact .inr hbreak
        · cases hx with
          | «break» _ hbreak => exact .inr hbreak
      refine ⟨xs ++ run, ds, (List.append_assoc ..).symm, ?_, hds⟩
      obtain rfl | hxs := hxs
      · exact hgap
      · exact .inr (isBreak_append hxs hgap)

/-- A space that matters is a **gap** to be read as one. -/
theorem gap_of_space {before after : Bool} {run : List Char} (h : Prints q .space run) :
    Gap q before true after run := by
  cases h with
  | space => exact .plain before after
  | spelled hlater => exact @Gap.spelled q [] _ before after (.inl rfl) hlater

/-- What is read of a row, with or without a space before it. -/
def spacedIf (space : Bool) (r : Reading Lexeme) : Reading Lexeme :=
  if space then r.consSpace else r

theorem forall_readable_cons {part : Part} {parts : List Part}
    (h : ∀ content ∈ (part :: parts).filterMap content?, content.IsReadable) :
    (∀ content ∈ part.content?, content.IsReadable) ∧
      ∀ content ∈ parts.filterMap content?, content.IsReadable := by
  constructor
  · intro content hcontent
    exact h content (List.mem_filterMap.mpr ⟨part, List.mem_cons_self, hcontent⟩)
  · intro content hcontent
    obtain ⟨part', hpart', heq⟩ := List.mem_filterMap.mp hcontent
    exact h content (List.mem_filterMap.mpr ⟨part', List.mem_cons_of_mem part hpart', heq⟩)

/-- A content **in front of what is set out** already. -/
theorem sets_cons {content : Part} {rest : List Part} (filled : content.isFilled)
    (hrun : Run q (content :: rest) cs)
    (hc : ∀ c ∈ (content :: rest).filterMap content?, c.IsReadable)
    {before space : Bool} {run : List Char}
    (hgap : Gap q before space (startsWord (content :: rest)) run)
    (hrest : ∀ ds, Run q rest ds → Sets q (startsWord (content :: rest)) (readLexemes rest) ds) :
    Sets q before (spacedIf space (readLexemes (content :: rest))) (run ++ cs) := by
  obtain ⟨x, hread, hword, hprints⟩ := exists_lexeme_of_isFilled filled q
  cases hrun with
  | @cons _ _ xs ds hx hds _ =>
    rw [hword] at hgap hrest
    have hset := Sets.item hgap (hprints (forall_readable_cons hc).1 xs hx) (hrest ds hds)
    rw [hread]
    cases space with
    | false => exact hset
    | true => exact hset

/-- The space **after the last content**, before what follows the contents. -/
theorem gap_of_lastSpace (before : Bool) (hrun : Run q [.space] cs) :
    Gap q before true false cs := by
  cases hrun with
  | @cons _ _ xs ys hx hy plain =>
    cases hy with
    | done hend =>
      cases hx with
      | space =>
        rw [plain rfl rfl rfl, List.append_nil]
        exact .plain before false
      | spelled hlater =>
        rw [List.append_assoc]
        exact @Gap.spelled q [] _ before false (.inl rfl) (isBreak_append hlater hend)

/-- The line between two words comes out as a **space or a line break**. -/
theorem gap_of_orSpace {run : List Char} (h : Prints q (.line .orSpace) run) :
    Gap q true true true run := by
  cases h with
  | orSpace => exact .plain true true
  | «break» _ hbreak => exact .betweenWords hbreak

/-- What follows a content is separated too. -/
theorem separated_of_cons {content : Part} {rest : List Part} (filled : content.isFilled)
    (h : Separated (readLexemes (content :: rest))) : Separated (readLexemes rest) := by
  obtain ⟨x, hread, -⟩ := exists_lexeme_of_isFilled filled .double
  rw [hread] at h
  exact h.of_consItem

/-- Where nothing is read between two contents, **they are not both words**. -/
theorem apart_of_isLoose {content : Part} {separators rest : List Part} (filled : content.isFilled)
    (hloose : ∀ separator ∈ separators, IsLoose separator) (hrow : Row rest)
    (h : Separated (readLexemes (content :: (separators ++ rest)))) :
    (startsWord (content :: (separators ++ rest)) && startsWord rest) = false := by
  obtain ⟨x, hread, hword, -⟩ := exists_lexeme_of_isFilled filled .double
  obtain ⟨y, r, hrest, hnext⟩ := hrow.exists_lexeme
  rw [hread, readLexemes_of_isLoose hloose, hrest] at h
  rw [hword, hnext]
  exact h.not_both

/-- A **row is set out** as it reads, behind any gap. -/
theorem Row.sets {parts : List Part} (hrow : Row parts) (hrun : Run q parts cs)
    (hc : ∀ content ∈ parts.filterMap content?, content.IsReadable)
    (hsep : Separated (readLexemes parts)) {before space : Bool} {run : List Char}
    (hgap : Gap q before space (startsWord parts) run) :
    Sets q before (spacedIf space (readLexemes parts)) (run ++ cs) := by
  induction hrow generalizing before space run cs with
  | last filled =>
    refine sets_cons filled hrun hc hgap fun ds hds => ?_
    cases hds with
    | done hend => exact .done (.none hend (Bool.and_false _))
  | lastSpace filled =>
    refine sets_cons filled hrun hc hgap fun ds hds => ?_
    exact .done (gap_of_lastSpace _ hds)
  | space filled _ ih =>
    refine sets_cons filled hrun hc hgap fun ds hds => ?_
    have hsep' := separated_of_cons filled hsep
    rw [readLexemes_space] at hsep' ⊢
    cases hds with
    | cons hx hy _ =>
      exact @ih _ hy (forall_readable_cons (forall_readable_cons hc).2).2
        (Lexeme.separated_consSpace.mp hsep') _ true _ (gap_of_space hx)
  | inText _ ih =>
    refine sets_cons rfl hrun hc hgap fun ds hds => ?_
    have hsep' := separated_of_cons rfl hsep
    rw [readLexemes_orSpace] at hsep' ⊢
    cases hds with
    | cons hx hy _ =>
      exact @ih _ hy (forall_readable_cons (forall_readable_cons hc).2).2
        (Lexeme.separated_consSpace.mp hsep') _ true _ (gap_of_orSpace hx)
  | @loose content separators rest filled hloose hrow ih =>
    refine sets_cons filled hrun hc hgap fun ds hds => ?_
    have hapart := apart_of_isLoose filled hloose hrow hsep
    obtain ⟨run, es, rfl, hloose', hes⟩ := exists_run_of_isLoose hloose hds
    have hsep' := separated_of_cons filled hsep
    rw [readLexemes_of_isLoose hloose] at hsep' ⊢
    have hc' : ∀ c ∈ rest.filterMap content?, c.IsReadable := by
      intro c hmem
      refine (forall_readable_cons hc).2 c ?_
      rw [List.filterMap_append]
      exact List.mem_append_right _ hmem
    exact @ih _ hes hc' hsep' _ false _ (.none hloose' hapart)

/-- A line break in front of a space **that is spelled out** is no part of it. -/
theorem gap_append {before after : Bool} {lead run : List Char} (h : Gap q before true after run)
    (hl : lead = [] ∨ IsBreak lead ∧ ∃ later, IsBreak later ∧ run = spelling q ++ later) :
    Gap q before true after (lead ++ run) := by
  obtain rfl | ⟨hlead, later, hlater, rfl⟩ := hl
  · exact h
  · rw [← List.append_assoc]
    exact .spelled before after (.inr hlead) hlater

theorem exists_later_of_space {run rest later : List Char} (h : Prints q .space run)
    (hspelled : run ++ rest = spelling q ++ later) :
    ∃ later, IsBreak later ∧ run = spelling q ++ later := by
  cases h with
  | space => cases (List.cons.inj hspelled).1
  | spelled hlater => exact ⟨_, hlater, rfl⟩

/-- A space **before everything else**, with the line break in front of it. -/
theorem gap_of_lead {rest : List Part} {lead : List Char}
    (hrun : Run q (.empty :: .space :: rest) cs)
    (hl : lead = [] ∨ IsBreak lead ∧ ∃ later, cs = spelling q ++ later) :
    ∃ run ds, cs = run ++ ds ∧ Run q rest ds ∧ ∀ after, Gap q false true after (lead ++ run) := by
  cases hrun with
  | @cons _ _ xs ys hx hy _ =>
    cases hx
    cases hy with
    | @cons _ _ zs ws hz hw _ =>
      refine ⟨zs, ws, List.nil_append _, hw, fun after => ?_⟩
      refine gap_append (gap_of_space hz) (hl.imp_right fun ⟨hlead, later, hlater⟩ => ⟨hlead, ?_⟩)
      exact exists_later_of_space hz hlater

/-- A space that is **all there is**. -/
theorem gap_of_alone {lead : List Char} (hrun : Run q [.empty, .space] cs)
    (hl : lead = [] ∨ IsBreak lead ∧ ∃ later, cs = spelling q ++ later) :
    Gap q false true false (lead ++ cs) := by
  cases hrun with
  | @cons _ _ xs ys hx hy _ =>
    cases hx
    refine gap_append (gap_of_lastSpace false hy) ?_
    refine hl.imp_right fun ⟨hlead, later, hlater⟩ => ⟨hlead, ?_⟩
    cases hy with
    | cons hz hw _ =>
      cases hw with
      | done hend =>
        obtain ⟨later, hbreak, rfl⟩ := exists_later_of_space hz hlater
        exact ⟨_, isBreak_append hbreak hend, List.append_assoc ..⟩

/-- What is printed **before everything else** is a line break or nothing. -/
theorem sets_of_lead {parts : List Part} (h : parts = [] ∨ Row parts ∨ Spaced parts)
    {lead : List Char} (hrun : Run q parts cs)
    (hl : lead = [] ∨ IsBreak lead ∧ (startsSpace parts = true → ∃ rest, cs = spelling q ++ rest))
    (hc : ∀ content ∈ parts.filterMap content?, content.IsReadable)
    (hsep : Separated (readLexemes parts)) : Sets q false (readLexemes parts) (lead ++ cs) := by
  have hlead : lead = [] ∨ IsBreak lead := hl.imp_right And.left
  obtain rfl | hrow | _ | @⟨rest, hrow⟩ := h
  · cases hrun with
    | done hend =>
      refine .done (.none ?_ rfl)
      obtain rfl | hlead := hlead
      · exact hend
      · exact .inr (isBreak_append hlead hend)
  · exact @Row.sets q _ _ hrow hrun hc hsep false false lead (.none hlead rfl)
  · exact .done (gap_of_alone hrun (hl.imp_right fun ⟨hlead, hspace⟩ => ⟨hlead, hspace rfl⟩))
  · obtain ⟨run, ds, rfl, hds, hgap⟩ :=
      gap_of_lead hrun (hl.imp_right fun ⟨hlead, hspace⟩ => ⟨hlead, hspace rfl⟩)
    have hread : readLexemes (.empty :: .space :: rest) = (readLexemes rest).consSpace :=
      readLexemes_space rest
    rw [hread, Lexeme.separated_consSpace] at hsep
    rw [hread, ← List.append_assoc]
    have hcontents := (forall_readable_cons (forall_readable_cons hc).2).2
    exact @Row.sets q _ _ hrow hds hcontents hsep false true _ (hgap _)

/-- A **body is set out** as its parts read. -/
theorem Body.sets {parts : List Part} (h : parts = [] ∨ Row parts ∨ Spaced parts)
    (hbody : Body q parts cs) (hc : ∀ content ∈ parts.filterMap content?, content.IsReadable)
    (hsep : Separated (readLexemes parts)) : Sets q false (readLexemes parts) cs := by
  cases hbody with
  | onOneLine hrun => exact @sets_of_lead q _ _ h [] hrun (.inl rfl) hc hsep
  | onLines hlead hrun hspace => exact sets_of_lead h hrun (.inr ⟨hlead, hspace⟩) hc hsep

end Part

end Reflow
