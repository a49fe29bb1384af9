import Reflow.Doc.Typeset
import Reflow.Proofs.Doc.Outcome
import Reflow.Proofs.Layout.Columns

/-!
# Proofs/Doc/Grouping — every group is flat or broken

The resolver settles some groups and the width the others, but each group comes out flat or broken
as a whole.  A document whose groups are **decided** prints its texts with every line and every
choice by the state of the nearest group (`Decided.printed`), and typesetting a document of groups
writes what it prints for some decisions that respect the nesting and the forced breaks
(`Doc.exists_decided_typeset`).
-/

namespace Reflow

/-! ## Decisions -/

/-- A document of groups **with a decision for each group**. -/
inductive Decided where
  | text (s : String)
  | concat (docs : List Decided)
  | line (kind : LineKind)
  | indent (contents : Decided)
  | group (shouldBreak : Bool) (mode : Mode) (contents : Decided)
  | ifBreak (broken flat : Decided)
  | suffixBoundary

/-- What is printed: a text, or a **line break** before so many levels of indentation. -/
inductive Printed where
  | text (s : String)
  | break (depth : Nat)

namespace Decided

mutual

/-- The document **without the decisions**. -/
def doc : Decided → Doc
  | text s => .text s
  | concat ds => .concat (docs ds)
  | line kind => .line kind
  | indent d => .indent d.doc
  | group shouldBreak _ d => .group shouldBreak d.doc
  | ifBreak broken flat => .ifBreak broken.doc flat.doc
  | suffixBoundary => .suffixBoundary

def docs : List Decided → List Doc
  | [] => []
  | d :: ds => d.doc :: docs ds

end

mutual

/-- Decisions are **consistent** in a group of the given mode: a group inside a flat one is flat,
and one that is bound to break is broken. -/
def Consistent (mode : Mode) : Decided → Prop
  | text _ | line _ | suffixBoundary => True
  | concat ds => AllConsistent mode ds
  | indent d => d.Consistent mode
  | group shouldBreak inner d =>
    (mode = .flat → inner = .flat) ∧
      ((Doc.group shouldBreak d.doc).willBreak = true → inner = .broken) ∧ d.Consistent inner
  | ifBreak broken flat => broken.Consistent mode ∧ flat.Consistent mode

def AllConsistent (mode : Mode) : List Decided → Prop
  | [] => True
  | d :: ds => d.Consistent mode ∧ AllConsistent mode ds

end

mutual

/-- What decided documents **print** at a level of indentation: each line and each choice goes by
the mode of the nearest group. -/
def printed (mode : Mode) (depth : Nat) : Decided → List Printed
  | text s => [.text s]
  | concat ds => allPrinted mode depth ds
  | line kind =>
    match kind, mode with
    | .hard, _ | _, .broken => [.break depth]
    | .orSpace, .flat => [.text " "]
    | .orNil, .flat => []
  | indent d => d.printed mode (depth + 1)
  | group _ inner d => d.printed inner depth
  | ifBreak broken flat =>
    match mode with
    | .flat => flat.printed .flat depth
    | .broken => broken.printed .broken depth
  | suffixBoundary => []

def allPrinted (mode : Mode) (depth : Nat) : List Decided → List Printed
  | [] => []
  | d :: ds => d.printed mode depth ++ allPrinted mode depth ds

end

end Decided

/-! ## Writing what is printed -/

namespace Printed

/-- The next thing that is printed is **a line break**; an empty text is nothing. -/
def BreaksNext (items : List Printed) : Prop :=
  ∃ texts depth later, items = texts ++ .break depth :: later ∧ ∀ item ∈ texts, item = .text ""

/-- How items are **written** before others: a line break is followed by its indentation, which may
only be missing where a line break is next. -/
inductive Written (o : LayoutOptions) (after : List Printed) : List Printed → List Char → Prop
  | nil : Written o after [] []
  | text (s : String) {items : List Printed} {cs : List Char} (h : Written o after items cs) :
      Written o after (.text s :: items) (s.toList ++ cs)
  | break (depth : Nat) {items : List Printed} {cs : List Char} (h : Written o after items cs) :
      Written o after (.break depth :: items) (o.lineBreak.chars ++ Piece.levels o depth ++ cs)
  | blank (depth : Nat) {items : List Printed} {cs : List Char} (next : BreaksNext (items ++ after))
      (h : Written o after items cs) :
      Written o after (.break depth :: items) (o.lineBreak.chars ++ cs)

variable {o : LayoutOptions} {after xs ys : List Printed} {cs ds : List Char}

theorem Written.append (h : Written o (ys ++ after) xs cs) (h' : Written o after ys ds) :
    Written o after (xs ++ ys) (cs ++ ds) := by
  induction h with
  | nil => exact h'
  | text s _ ih =>
    rw [List.append_assoc]
    exact .text s ih
  | «break» depth _ ih =>
    rw [List.append_assoc]
    exact .break depth ih
  | blank depth next _ ih =>
    rw [← List.append_assoc] at next
    rw [List.append_assoc]
    exact .blank depth next ih

theorem written_text (o : LayoutOptions) (after : List Printed) (s : String) :
    Written o after [.text s] s.toList := by
  have h := Written.text s (.nil : Written o after [] [])
  rwa [List.append_nil] at h

theorem BreaksNext.append (hx : ∀ item ∈ xs, item = .text "") (h : BreaksNext ys) :
    BreaksNext (xs ++ ys) := by
  obtain ⟨texts, depth, later, rfl, htexts⟩ := h
  exact ⟨xs ++ texts, depth, later, (List.append_assoc ..).symm,
    List.forall_mem_append.mpr ⟨hx, htexts⟩⟩

end Printed

namespace Decided

mutual

/-- A document that prints nothing prints **empty texts**. -/
theorem printed_of_isEmpty (mode : Mode) (depth : Nat) (d : Decided) (h : d.doc.isEmpty = true) :
    ∀ item ∈ d.printed mode depth, item = .text "" := by
  match d with
  | text s =>
    have hs : s = "" := String.isEmpty_iff.mp h
    simp [printed, hs]
  | concat ds => exact allPrinted_of_allEmpty mode depth ds h

theorem allPrinted_of_allEmpty (mode : Mode) (depth : Nat) (ds : List Decided)
    (h : Doc.allEmpty (docs ds) = true) : ∀ item ∈ allPrinted mode depth ds, item = .text "" := by
  match ds with
  | [] => simp [allPrinted]
  | d :: ds =>
    rw [docs, Doc.allEmpty, Bool.and_eq_true] at h
    exact List.forall_mem_append.mpr
      ⟨printed_of_isEmpty mode depth d h.1, allPrinted_of_allEmpty mode depth ds h.2⟩

end

/-- Where a line break is sure to follow, **it is the next thing that is printed**. -/
theorem breaksNext_of_nextIsBreak {state : GroupState} (mode : Mode) (depth : Nat)
    (after : List Printed) {ds : List Decided} (h : Doc.nextIsBreak state (docs ds) = true) :
    Printed.BreaksNext (allPrinted (state.modeIn mode) depth ds ++ after) := by
  induction ds with
  | nil => cases h
  | cons d ds ih =>
    rw [allPrinted, List.append_assoc]
    rw [docs, Doc.nextIsBreak, List.find?_cons] at h
    cases hempty : d.doc.isEmpty with
    | true =>
      rw [hempty] at h
      exact (ih h).append (printed_of_isEmpty _ depth d hempty)
    | false =>
      rw [hempty] at h
      have hbreak : d.printed (state.modeIn mode) depth = [.break depth] := by
        cases d with
        | line kind =>
          cases kind with
          | hard => rfl
          | orSpace | orNil =>
            obtain rfl : state = .broken := eq_of_beq h
            rfl
        | text | concat | indent | group | ifBreak | suffixBoundary => cases h
      rw [hbreak]
      exact ⟨[], depth, _, rfl, by simp⟩

end Decided

/-! ## Documents of groups -/

namespace Doc

/-- A **document of groups**: nothing is held back, and there are no fills and no variants. -/
inductive OfGroups : Doc → Prop
  | text (s : String) : OfGroups (text s)
  | concat {docs : List Doc} (h : ∀ doc ∈ docs, OfGroups doc) : OfGroups (concat docs)
  | line (kind : LineKind) : OfGroups (line kind)
  | indent {doc : Doc} (h : OfGroups doc) : OfGroups (indent doc)
  | group (shouldBreak : Bool) {doc : Doc} (h : OfGroups doc) : OfGroups (group shouldBreak doc)
  | ifBreak {broken flat : Doc} (hb : OfGroups broken) (hf : OfGroups flat) :
      OfGroups (ifBreak broken flat)
  | suffixBoundary : OfGroups suffixBoundary

theorem OfGroups.suffixDepth_eq_zero {doc : Doc} (h : doc.OfGroups) : doc.suffixDepth = 0 := by
  induction h with
  | text | line | suffixBoundary => rfl
  | concat _ ih => exact (maxSuffixDepth_eq_zero_iff _).mpr ih
  | indent _ ih | group _ _ ih => exact ih
  | ifBreak _ _ ihb ihf => rw [suffixDepth, ihb, ihf, Nat.max_self]

end Doc

/-- The characters a layout is **set as** at a level of indentation. -/
def Layout.chars (o : LayoutOptions) (layout : Layout) (mode : Mode) (depth : Nat) (rest : Rest)
    (column : Nat) : List Char :=
  (layout.set o.printWidth mode (depth * o.indentWidth) rest column).flatMap (Piece.chars o)

namespace Doc

open Printed (Written BreaksNext)

variable {o : LayoutOptions}

theorem written_resolveLine (hindent : 0 < o.indentWidth) (flush : Flush) (state : GroupState)
    (kind : LineKind) {beforeBreak : Bool} (mode : Mode) (depth : Nat) (rest : Layout.Rest)
    (column : Nat) {after : List Printed} (hafter : beforeBreak = true → BreaksNext after) :
    Written o after ((Decided.line kind).printed (state.modeIn mode) depth)
      ((resolveLine flush state kind beforeBreak []).layout.chars o mode depth rest column) := by
  have hnewline : Written o after [.break depth]
      ([.newline (depth * o.indentWidth)].flatMap (Piece.chars o)) := by
    have h := Written.break depth (.nil : Written o after [] [])
    rwa [← Piece.indentation_mul hindent] at h
  have hcertain : Written o after [.break depth]
      ((certainBreak flush beforeBreak []).layout.chars o mode depth rest column) := by
    cases beforeBreak with
    | false => exact hnewline
    | true => exact .blank depth (hafter rfl) .nil
  cases state with
  | broken => cases kind <;> exact hcertain
  | flat =>
    cases kind with
    | hard => exact hcertain
    | orSpace => exact Printed.written_text o after " "
    | orNil => exact .nil
  | undecided =>
    cases kind with
    | hard => exact hcertain
    | orSpace =>
      cases mode with
      | flat => exact Printed.written_text o after " "
      | broken => exact hnewline
    | orNil =>
      cases mode with
      | flat => exact .nil
      | broken => exact hnewline

/-- A group is set flat or broken: inside a flat one it is **flat**, and if it is bound to break it
is **broken**. -/
theorem exists_chars_inGroup (o : LayoutOptions) (state : GroupState) {boundToBreak : Bool}
    (hbound : boundToBreak = true → state = .broken) (layout : Layout) (mode : Mode) (depth : Nat)
    (rest : Layout.Rest) (column : Nat) :
    ∃ inner, (state.modeIn mode = .flat → (innerState state boundToBreak).modeIn inner = .flat) ∧
      (boundToBreak = true → (innerState state boundToBreak).modeIn inner = .broken) ∧
      (inGroup (innerState state boundToBreak) layout).chars o mode depth rest column =
        layout.chars o inner depth rest column := by
  cases boundToBreak with
  | true =>
    obtain rfl := hbound rfl
    exact ⟨mode, fun hflat => Mode.noConfusion hflat, fun _ => rfl, rfl⟩
  | false =>
    have hgroup : ∃ inner, (mode = .flat → inner = .flat) ∧
        (Layout.group layout).chars o mode depth rest column =
          layout.chars o inner depth rest column := by
      cases mode with
      | flat => exact ⟨.flat, fun _ => rfl, rfl⟩
      | broken =>
        rw [Layout.chars, Layout.set]
        split_ifs
        · exact ⟨.flat, fun _ => rfl, rfl⟩
        · exact ⟨.broken, False.elim, rfl⟩
    obtain ⟨inner, hflat, hset⟩ := hgroup
    have hfree : ∀ {p : Prop}, false = true → p := fun h => absurd h Bool.false_ne_true
    cases state with
    | flat => exact ⟨mode, fun _ => rfl, hfree, rfl⟩
    | broken => exact ⟨inner, fun hflat => Mode.noConfusion hflat, hfree, hset⟩
    | undecided => exact ⟨inner, hflat, hfree, hset⟩

/-- A choice is set as **the branch of its group**. -/
theorem exists_chars_ifBreak (flush : Flush) (state : GroupState) (beforeBreak : Bool)
    (broken : Doc) {flat : Doc}
    (hpending : (resolve flush o.indentWidth .flat false flat []).pending = []) (mode : Mode)
    (depth : Nat) (rest : Layout.Rest) (column : Nat) :
    ∃ state' : GroupState, state'.modeIn mode = state.modeIn mode ∧
      (state = .broken → state' = .broken) ∧
      (resolve flush o.indentWidth state beforeBreak (ifBreak broken flat) []).layout.chars o mode
          depth rest column =
        (resolve flush o.indentWidth state' false
          (match state.modeIn mode with | .flat => flat | .broken => broken) []).layout.chars o mode
            depth rest column := by
  cases state with
  | flat => exact ⟨.flat, rfl, id, rfl⟩
  | broken => exact ⟨.broken, rfl, id, rfl⟩
  | undecided =>
    rw [resolve, hpending]
    cases mode with
    | flat => exact ⟨.flat, rfl, nofun, rfl⟩
    | broken => exact ⟨.undecided, rfl, nofun, rfl⟩

mutual

/-- **Resolving a document of groups** and setting it writes what it prints for some decisions. -/
theorem exists_decided (hindent : 0 < o.indentWidth) (flush : Flush) (state : GroupState)
    (beforeBreak : Bool) (doc : Doc) (h : doc.OfGroups)
    (hstate : state ≠ .broken → doc.willBreak = false) (mode : Mode) (depth : Nat)
    (rest : Layout.Rest) (column : Nat) (after : List Printed)
    (hafter : beforeBreak = true → BreaksNext after) :
    ∃ d : Decided, d.doc = doc ∧ d.Consistent (state.modeIn mode) ∧
      Written o after (d.printed (state.modeIn mode) depth)
        ((resolve flush o.indentWidth state beforeBreak doc []).layout.chars o mode depth rest
          column) := by
  match doc, h with
  | text s, _ => exact ⟨.text s, rfl, trivial, .text s .nil⟩
  | concat docs, .concat h =>
    obtain ⟨ds, rfl, hds, hwritten⟩ := exists_allDecided hindent flush state docs h
      (fun hs => by simpa [willBreak] using hstate hs) mode depth rest column after
    exact ⟨.concat ds, rfl, hds, hwritten⟩
  | line kind, _ =>
    exact ⟨.line kind, rfl, trivial,
      written_resolveLine hindent flush state kind mode depth rest column hafter⟩
  | indent contents, .indent h =>
    obtain ⟨d, rfl, hd, hwritten⟩ := exists_decided hindent flush state false contents h hstate mode
      (depth + 1) rest column after nofun
    refine ⟨.indent d, rfl, hd, ?_⟩
    rw [Layout.chars, Nat.succ_mul] at hwritten
    exact hwritten
  | group shouldBreak contents, .group _ h =>
    -- what is bound to break is only ever inside groups that are broken
    have hbound (hbreak : (shouldBreak || contents.willBreak) = true) : state = .broken := by
      by_contra hne
      exact absurd (hbreak.symm.trans (hstate hne)) (by decide)
    have hcontents (hne : innerState state (shouldBreak || contents.willBreak) ≠ .broken) :
        contents.willBreak = false := by
      cases hbreak : (shouldBreak || contents.willBreak) with
      | false => exact (Bool.or_eq_false_iff.mp hbreak).2
      | true =>
        rw [hbreak, hbound hbreak] at hne
        exact absurd rfl hne
    let inside := innerState state (shouldBreak || contents.willBreak)
    obtain ⟨inner, hflat, hbroken, hset⟩ := exists_chars_inGroup o state hbound
      (resolve flush o.indentWidth inside false contents []).layout mode depth rest column
    obtain ⟨d, rfl, hd, hwritten⟩ :=
      exists_decided hindent flush inside false contents h hcontents inner
      depth rest column after nofun
    refine ⟨.group shouldBreak (inside.modeIn inner) d, rfl, ⟨hflat, hbroken, hd⟩, ?_⟩
    rw [← hset] at hwritten
    exact hwritten
  | ifBreak broken flat, .ifBreak hb hf =>
    obtain ⟨state', hmode, hsame, hset⟩ := exists_chars_ifBreak flush state beforeBreak broken
      (resolve_yields o flush o.indentWidth .flat false flat hf.suffixDepth_eq_zero).pending
      mode depth rest column
    have hbranches (hs : state' ≠ .broken) : broken.willBreak = false ∧ flat.willBreak = false :=
      Bool.or_eq_false_iff.mp (hstate fun hbroken => hs (hsame hbroken))
    -- the branch that is not printed is decided as well
    obtain ⟨b, rfl, hb', hwrittenb⟩ := exists_decided hindent flush state' false broken hb
      (fun hs => (hbranches hs).1) mode depth rest column after nofun
    obtain ⟨f, rfl, hf', hwrittenf⟩ := exists_decided hindent flush state' false flat hf
      (fun hs => (hbranches hs).2) mode depth rest column after nofun
    rw [hmode] at hb' hf' hwrittenb hwrittenf
    refine ⟨.ifBreak b f, rfl, ⟨hb', hf'⟩, ?_⟩
    rw [hset]
    cases hprinted : state.modeIn mode with
    | flat =>
      rw [hprinted] at hwrittenf
      exact hwrittenf
    | broken =>
      rw [hprinted] at hwrittenb
      exact hwrittenb
  | suffixBoundary, _ => exact ⟨.suffixBoundary, rfl, trivial, .nil⟩

theorem exists_allDecided (hindent : 0 < o.indentWidth) (flush : Flush) (state : GroupState)
    (docs : List Doc) (h : ∀ doc ∈ docs, doc.OfGroups)
    (hstate : state ≠ .broken → anyWillBreak docs = false) (mode : Mode) (depth : Nat)
    (rest : Layout.Rest) (column : Nat) (after : List Printed) :
    ∃ ds : List Decided, Decided.docs ds = docs ∧
      Decided.AllConsistent (state.modeIn mode) ds ∧
      Written o after (Decided.allPrinted (state.modeIn mode) depth ds)
        ((resolveAll flush o.indentWidth state docs []).layout.chars o mode depth rest column) := by
  match docs with
  | [] => exact ⟨[], rfl, trivial, .nil⟩
  | doc :: docs =>
    have hhere := (resolve_yields o flush o.indentWidth state (nextIsBreak state docs) doc
      (h doc List.mem_cons_self).suffixDepth_eq_zero).pending
    have hstate' (hs : state ≠ .broken) : doc.willBreak = false ∧ anyWillBreak docs = false :=
      Bool.or_eq_false_iff.mp (hstate hs)
    obtain ⟨hdoc, hdocs⟩ := List.forall_mem_cons.mp h
    let here := resolve flush o.indentWidth state (nextIsBreak state docs) doc []
    let later := resolveAll flush o.indentWidth state docs []
    let next := Piece.columnAfterAll column (here.layout.set o.printWidth mode
      (depth * o.indentWidth) ((mode, later.layout) :: rest) column)
    -- the later documents are decided first: they tell what follows this one
    obtain ⟨ds, rfl, hds, hlater⟩ := exists_allDecided hindent flush state docs hdocs
      (fun hs => (hstate' hs).2) mode depth rest next after
    obtain ⟨d, rfl, hd, hwritten⟩ := exists_decided hindent flush state
      (nextIsBreak state (Decided.docs ds)) doc hdoc (fun hs => (hstate' hs).1) mode depth
      ((mode, later.layout) :: rest) column
        (Decided.allPrinted (state.modeIn mode) depth ds ++ after)
      (Decided.breaksNext_of_nextIsBreak mode depth after)
    refine ⟨d :: ds, rfl, ⟨hd, hds⟩, ?_⟩
    rw [resolveAll, hhere, Layout.chars, Layout.set, List.flatMap_append]
    exact hwritten.append hlater

end

/-- **Groups are honoured**: typesetting a document of groups writes what it prints in a broken
group for some decisions, where a group inside a flat one is flat and a group that is bound to break
is broken. -/
theorem exists_decided_typeset (o : LayoutOptions) (hindent : 0 < o.indentWidth) {doc : Doc}
    (h : doc.OfGroups) :
    ∃ d : Decided, d.doc = doc ∧ d.Consistent .broken ∧
      ∃ output, doc.typeset o = .ok output ∧ Written o [] (d.printed .broken 0) output.toList := by
  have hdepth := h.suffixDepth_eq_zero
  have hpending := (resolve_yields o (flushAt o.indentWidth doc.suffixDepth) o.indentWidth .broken
    false doc hdepth).pending
  obtain ⟨d, hd, hconsistent, hwritten⟩ := exists_decided hindent
    (flushAt o.indentWidth doc.suffixDepth) .broken false doc h (fun hs => absurd rfl hs)
    .broken 0 [] 0 [] nofun
  refine ⟨d, hd, hconsistent, Piece.write o (doc.pieces o), by rw [typeset, if_neg hindent.ne'], ?_⟩
  rw [Piece.toList_write, pieces, layout, hpending, Layout.pieces]
  rw [Layout.chars, Nat.zero_mul] at hwritten
  exact hwritten

/-- The inner group fits where the outer one does not. -/
theorem exists_decided_typeset_nested :
    0 < ({ printWidth := 4 } : LayoutOptions).indentWidth ∧
      ∃ d : Decided, d.doc = group false (indent (concat [text "aaa", line .orSpace,
          group false (concat [text "b", line .orNil, ifBreak (text ",") (text "")])])) ∧
        d.Consistent .broken ∧
        ∃ output, d.doc.typeset { printWidth := 4 } = .ok output ∧
          Written { printWidth := 4 } [] (d.printed .broken 0) output.toList := by
  have hindent : 0 < ({ printWidth := 4 } : LayoutOptions).indentWidth := by decide
  have hinner : (concat [text "b", line .orNil, ifBreak (text ",") (text "")]).OfGroups := by
    refine .concat ?_
    rintro _ (_ | ⟨_, _ | ⟨_, _ | ⟨_, ⟨⟩⟩⟩⟩)
    exacts [.text _, .line _, .ifBreak (.text _) (.text _)]
  have houter : (concat [text "aaa", line .orSpace, group false
      (concat [text "b", line .orNil, ifBreak (text ",") (text "")])]).OfGroups := by
    refine .concat ?_
    rintro _ (_ | ⟨_, _ | ⟨_, _ | ⟨_, ⟨⟩⟩⟩⟩)
    exacts [.text _, .line _, .group false hinner]
  obtain ⟨d, hd, hconsistent, output, htypeset, hwritten⟩ :=
    exists_decided_typeset { printWidth := 4 } hindent (.group false (.indent houter))
  exact ⟨hindent, d, hd, hconsistent, output, hd ▸ htypeset, hwritten⟩

end Doc

end Reflow
