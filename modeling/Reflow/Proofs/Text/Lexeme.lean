import Mathlib.Data.List.Chain
import Reflow.Proofs.Text.Reading
import Reflow.Proofs.Text.Words
import Reflow.Proofs.Layout.Outcome

/-!
# Proofs/Text/Lexeme — markup read from its text

What stands between two tags is words, blanks, children and spaces that are spelled out.  A reader
who knows the texts of the children tells these apart (`Lexeme.scan`) and reads the blanks away that
span lines, but for those between two words (`Lexeme.read`).

Markup may be **set out** in many ways that read alike; `Lexeme.Sets` names them, and
`Sets.read_scan` is the proof.
-/

namespace Reflow

open Text (IsBlankRun IsWord isBlank)
open Piece (IsBreak)

/-- A **lexeme** of the inside of markup. -/
inductive Lexeme where
  /-- Characters of text without blanks. -/
  | word (cs : List Char)
  | blanks (run : List Char)
  /-- A space spelled out, in either quote. -/
  | spelled
  /-- A child that is not text, as it is written. -/
  | child (own : List Char)
  deriving DecidableEq, Repr

namespace Lexeme

/-! ## Scanning -/

/-- A character of text **in front of** lexemes: it joins a word or a run of its kind. -/
def push (c : Char) : List Lexeme → List Lexeme
  | word cs :: rest => if isBlank c then blanks [c] :: word cs :: rest else word (c :: cs) :: rest
  | blanks run :: rest =>
    if isBlank c then blanks (c :: run) :: rest else word [c] :: blanks run :: rest
  | rest => if isBlank c then blanks [c] :: rest else word [c] :: rest

/-- The lexemes of text. -/
def ofText (cs : List Char) : List Lexeme := cs.foldr push []

/-- A space spelled out. -/
def spelling (q : Quote) : List Char := ['{', q.char, ' ', q.char, '}']

/-- Whether a space stands here, spelled out. -/
def isSpelledAhead (cs : List Char) : Bool :=
  (spelling .double).isPrefixOf cs || (spelling .single).isPrefixOf cs

/-- Whether the next of the children stands here. -/
def isChildAhead (own : List (List Char)) (cs : List Char) : Bool :=
  own.head?.any fun next => next.isPrefixOf cs

/-- **Scanning** the inside of markup, told what the children look like in their order.  The first
`skip` characters belong to what has been found already. -/
def scan (skip : Nat) (own : List (List Char)) : List Char → List Lexeme
  | [] => []
  | c :: cs =>
    match skip with
    | skip + 1 => scan skip own cs
    | 0 =>
      if isChildAhead own (c :: cs) then
        child (own.headD []) :: scan ((own.headD []).length - 1) own.tail cs
      else if isSpelledAhead (c :: cs) then spelled :: scan 4 own cs
      else push c (scan 0 own cs)

/-! ## Reading -/

def isWord : Lexeme → Bool
  | word _ => true
  | blanks _ | spelled | child _ => false

/-- The **marks of lexemes**: blanks that span lines count between two words only. -/
def marks : (afterWord : Bool) → List Lexeme → List (Mark Lexeme)
  | _, [] => []
  | _, word cs :: rest => .item (word cs) :: marks true rest
  | _, child own :: rest => .item (child own) :: marks false rest
  | _, spelled :: rest => .space :: marks false rest
  | afterWord, blanks run :: rest =>
    if '\n' ∉ run || afterWord && rest.head?.any isWord then .space :: marks false rest
    else marks false rest

/-- Lexemes, **read**. -/
def read (lexemes : List Lexeme) : Reading Lexeme := .ofMarks (marks false lexemes)

/-- The texts of the children among lexemes. -/
def children : List Lexeme → List (List Char)
  | [] => []
  | child own :: rest => own :: children rest
  | _ :: rest => children rest

/-- The children that are read are those among the lexemes. -/
theorem children_items_read (lexemes : List Lexeme) :
    children ((read lexemes).items.map Prod.snd) = children lexemes := by
  have hmarks (before : Bool) :
      children ((marks before lexemes).filterMap Mark.item?) = children lexemes := by
    induction lexemes generalizing before with
    | nil => rfl
    | cons lexeme lexemes ih =>
      rcases lexeme with cs | run | _ | own
      · exact ih true
      · rw [marks]
        split_ifs
        · exact ih false
        · exact ih false
      · exact ih false
      · exact congrArg (own :: ·) (ih false)
  rw [read, Reading.map_snd_items_ofMarks, hmarks]

/-! ## Setting out

What may stand between two contents depends on whether they are words, and on whether a space has to
be read there. -/

/-- What may stand **between two contents**, which are words or not. -/
inductive Gap (q : Quote) : (before space after : Bool) → List Char → Prop
  | none {before after : Bool} {run : List Char} (h : run = [] ∨ IsBreak run)
      (apart : (before && after) = false) : Gap q before false after run
  | betweenWords {run : List Char} (h : IsBreak run) : Gap q true true true run
  | plain (before after : Bool) : Gap q before true after [' ']
  | spelled {run later : List Char} (before after : Bool) (h : run = [] ∨ IsBreak run)
      (h' : IsBreak later) : Gap q before true after (run ++ spelling q ++ later)

/-- The text of a **child that can be told** from a space spelled out: a tag, or
braces on one line. -/
def IsOwn (own : List Char) : Prop :=
  (∃ rest, own = '<' :: rest) ∨
    ∃ inside, own = '{' :: (inside ++ ['}']) ∧ '\n' ∉ inside ∧ ∀ q, own ≠ spelling q

theorem IsOwn.ne_nil {own : List Char} (h : IsOwn own) : own ≠ [] := by
  rintro rfl
  obtain ⟨rest, hnil⟩ | ⟨inside, hnil, -⟩ := h
  · cases hnil
  · cases hnil

/-- A character of text opens neither a tag nor braces. -/
def IsPlain (c : Char) : Prop := c ≠ '{' ∧ c ≠ '<'

instance (c : Char) : Decidable (IsPlain c) := inferInstanceAs (Decidable (_ ∧ _))

/-- A content with its characters. -/
inductive IsContent : Lexeme → List Char → Prop
  | word {cs : List Char} (h : IsWord cs) (plain : ∀ c ∈ cs, IsPlain c) : IsContent (word cs) cs
  | child {own : List Char} (h : IsOwn own) : IsContent (child own) own

/-- Contents **set out**, after a word or not, so that they read as given. -/
inductive Sets (q : Quote) : (afterWord : Bool) → Reading Lexeme → List Char → Prop
  | done {afterWord space : Bool} {run : List Char} (h : Gap q afterWord space false run) :
      Sets q afterWord ⟨[], space⟩ run
  | item {afterWord space : Bool} {r : Reading Lexeme} {run cs ds : List Char} {x : Lexeme}
      (h : Gap q afterWord space x.isWord run) (content : IsContent x cs)
        (hs : Sets q x.isWord r ds) :
      Sets q afterWord ⟨(space, x) :: r.items, r.spaceAtEnd⟩ (run ++ (cs ++ ds))

/-- Two words next to each other are **always separated** by a space. -/
def Separated (r : Reading Lexeme) : Prop :=
  r.items.IsChain fun x y => x.2.isWord = true → y.2.isWord = true → y.1 = true

/-- Whether a word is read first, with no space before it. -/
def StartsWord (r : Reading Lexeme) : Prop := ∃ x ∈ r.items.head?, x.1 = false ∧ x.2.isWord = true

theorem not_startsWord_consSpace (r : Reading Lexeme) : ¬ StartsWord r.consSpace := by
  obtain ⟨items, spaceAtEnd⟩ := r
  rcases items with _ | ⟨x, items⟩ <;> simp [StartsWord, Reading.consSpace]

theorem separated_consItem {x : Lexeme} {r : Reading Lexeme} (h : Separated r)
    (hx : x.isWord = true → ¬ StartsWord r) : Separated (r.consItem x) := by
  refine List.isChain_cons.mpr ⟨fun y hy hxword hyword => ?_, h⟩
  by_contra hspace
  exact hx hxword ⟨y, hy, by simpa using hspace, hyword⟩

theorem Separated.of_consItem {x : Lexeme} {r : Reading Lexeme} (h : Separated (r.consItem x)) :
    Separated r := h.tail

/-- Whether a space stands before the first item makes no difference. -/
theorem separated_consSpace {r : Reading Lexeme} : Separated r.consSpace ↔ Separated r := by
  obtain ⟨items, spaceAtEnd⟩ := r
  rcases items with _ | ⟨x, items⟩
  · rfl
  · simp [Reading.consSpace, Separated, List.isChain_cons]

/-- Two words with no space between them do not stand next to each other. -/
theorem Separated.not_both {x y : Lexeme} {r : Reading Lexeme}
    (h : Separated ((r.consItem y).consItem x)) : (x.isWord && y.isWord) = false := by
  have hxy := (List.isChain_cons_cons.mp h).1
  by_contra hboth
  rw [Bool.not_eq_false, Bool.and_eq_true] at hboth
  exact absurd (hxy hboth.1 hboth.2) (by simp)

/-! ## Pushing -/

theorem foldr_push_word {cs : List Char} (h : IsWord cs) {lexemes : List Lexeme}
    (hl : lexemes.head?.any isWord = false) : cs.foldr push lexemes = word cs :: lexemes := by
  obtain ⟨hne, hword⟩ := h
  induction cs with
  | nil => exact absurd rfl hne
  | cons c cs ih =>
    have hc : isBlank c = false := hword c List.mem_cons_self
    rw [List.foldr_cons]
    by_cases hcs : cs = []
    · subst hcs
      rcases lexemes with _ | ⟨_ | _ | _ | _, _⟩ <;> simp_all [push, isWord]
    · rw [ih hcs fun d hd => hword d (List.mem_cons_of_mem c hd)]
      simp [push, hc]

/-- Whether lexemes begin with blanks. -/
def startsBlank : List Lexeme → Bool
  | blanks _ :: _ => true
  | _ => false

theorem foldr_push_blanks {run : List Char} (h : IsBlankRun run) (hne : run ≠ [])
    {lexemes : List Lexeme} (hl : startsBlank lexemes = false) :
    run.foldr push lexemes = blanks run :: lexemes := by
  induction run with
  | nil => exact absurd rfl hne
  | cons c run ih =>
    have hc : isBlank c = true := h c List.mem_cons_self
    rw [List.foldr_cons]
    by_cases hrun : run = []
    · subst hrun
      rcases lexemes with _ | ⟨_ | _ | _ | _, _⟩ <;> simp_all [push, startsBlank]
    · rw [ih (fun d hd => h d (List.mem_cons_of_mem c hd)) hrun]
      simp [push, hc]

/-! ## Scanning what is set out -/

/-- What belongs to a lexeme that has been found is passed over. -/
theorem scan_skip (own : List (List Char)) (xs ys : List Char) :
    scan xs.length own (xs ++ ys) = scan 0 own ys := by
  induction xs with
  | nil => rfl
  | cons x xs ih => rw [List.length_cons, List.cons_append, scan, ih]

theorem scan_child {next : List Char} (others : List (List Char)) (hne : next ≠ [])
    (cs : List Char) : scan 0 (next :: others) (next ++ cs) = child next :: scan 0 others cs := by
  obtain ⟨c, next, rfl⟩ := List.exists_cons_of_ne_nil hne
  have hahead : isChildAhead ((c :: next) :: others) (c :: (next ++ cs)) = true := by
    simp [isChildAhead]
  rw [List.cons_append, scan, if_pos hahead]
  simp [scan_skip]

theorem isChildAhead_iff (own : List (List Char)) (cs : List Char) :
    isChildAhead own cs = true ↔ ∃ next ∈ own.head?, next <+: cs := by
  simp [isChildAhead, Option.any_eq_true, List.isPrefixOf_iff_prefix]

theorem isSpelledAhead_iff (cs : List Char) :
    isSpelledAhead cs = true ↔ ∃ q, spelling q <+: cs := by
  rw [isSpelledAhead, Bool.or_eq_true, List.isPrefixOf_iff_prefix, List.isPrefixOf_iff_prefix]
  constructor
  · rintro (h | h)
    · exact ⟨_, h⟩
    · exact ⟨_, h⟩
  · rintro ⟨_ | _, h⟩
    · exact .inl h
    · exact .inr h

theorem not_spelling_isPrefix {c : Char} (h : c ≠ '{') (q : Quote) (cs : List Char) :
    ¬ spelling q <+: c :: cs := fun hprefix => h (List.cons_prefix_cons.mp hprefix).1.symm

/-- A character of text is pushed in front. -/
theorem scan_plain {own : List (List Char)} (hown : ∀ next ∈ own, IsOwn next) {c : Char}
    (hc : IsPlain c) (cs : List Char) : scan 0 own (c :: cs) = push c (scan 0 own cs) := by
  have hchild : ¬ isChildAhead own (c :: cs) = true := by
    rw [isChildAhead_iff]
    rintro ⟨next, hnext, hprefix⟩
    obtain ⟨rest, rfl⟩ | ⟨inside, rfl, -⟩ := hown next (List.mem_of_mem_head? hnext)
    · exact hc.2 (List.cons_prefix_cons.mp hprefix).1.symm
    · exact hc.1 (List.cons_prefix_cons.mp hprefix).1.symm
  have hspelled : ¬ isSpelledAhead (c :: cs) = true := by
    rw [isSpelledAhead_iff]
    intro ⟨q, hprefix⟩
    exact not_spelling_isPrefix hc.1 q cs hprefix
  rw [scan, if_neg hchild, if_neg hspelled]

theorem scan_text {own : List (List Char)} (hown : ∀ next ∈ own, IsOwn next) {text : List Char}
    (h : ∀ c ∈ text, IsPlain c) (cs : List Char) :
    scan 0 own (text ++ cs) = text.foldr push (scan 0 own cs) := by
  induction text with
  | nil => rfl
  | cons c text ih =>
    rw [List.cons_append, scan_plain hown (h c List.mem_cons_self),
      ih fun d hd => h d (List.mem_cons_of_mem c hd), List.foldr_cons]

/-- Braces in front of a space spelled out are that space. -/
theorem eq_spelling_of_isPrefix {inside : List Char} {q : Quote}
    (h : '{' :: (inside ++ ['}']) <+: spelling q) : '{' :: (inside ++ ['}']) = spelling q := by
  obtain ⟨rest, hrest⟩ := h
  obtain rfl | ⟨front, last, rfl⟩ := List.eq_nil_or_concat rest
  · simpa using hrest
  · -- the only closing brace of the spelling is its last character
    have hmem : '}' ∈ (spelling q).dropLast := by
      rw [← hrest, List.concat_eq_append, ← List.append_assoc, List.dropLast_concat]
      simp
    cases q <;> simp [spelling, Quote.char] at hmem

/-- A child **never starts like a space spelled out** before a line break. -/
theorem not_isPrefix_spelling {own later : List Char} (h : IsOwn own) (hl : IsBreak later)
    (q : Quote) (cs : List Char) : ¬ own <+: spelling q ++ (later ++ cs) := by
  intro hprefix
  obtain ⟨rest, rfl⟩ | ⟨inside, rfl, hinside, hne⟩ := h
  · exact absurd (List.cons_prefix_cons.mp hprefix).1 (by decide)
  obtain hshort | ⟨more, hmore⟩ :=
    List.prefix_or_prefix_of_prefix hprefix (List.prefix_append (spelling q) _)
  · exact hne q (eq_spelling_of_isPrefix hshort)
  rw [← hmore, List.prefix_append_right_inj] at hprefix
  obtain hwithin | hbeyond :=
    List.prefix_or_prefix_of_prefix hprefix (List.prefix_append later cs)
  · -- the closing brace would be a blank
    have hmem : '}' ∈ more := by
      have hne : more ≠ [] := by
        rintro rfl
        exact hne q (by simpa using hmore.symm)
      obtain ⟨front, last, rfl⟩ := (List.eq_nil_or_concat more).resolve_left hne
      rw [List.concat_eq_append, ← List.append_assoc, ← List.cons_append] at hmore
      have hlast : '}' = last := by simpa using (List.append_inj' hmore rfl).2.symm
      rw [List.concat_eq_append, hlast]
      exact List.mem_concat_self
    exact absurd (hl.2 '}' (hwithin.subset hmem)) (by decide)
  · -- the braces would span lines
    have hmem : '\n' ∈ '{' :: (inside ++ ['}']) := by
      rw [← hmore]
      exact List.mem_append_right _ (hbeyond.subset hl.1)
    simp [hinside] at hmem

theorem scan_spelling {own : List (List Char)} (hown : ∀ next ∈ own, IsOwn next) (q : Quote)
    {later : List Char} (hl : IsBreak later) (cs : List Char) :
    scan 0 own (spelling q ++ (later ++ cs)) = spelled :: scan 0 own (later ++ cs) := by
  have hchild : ¬ isChildAhead own (spelling q ++ (later ++ cs)) = true := by
    rw [isChildAhead_iff]
    rintro ⟨next, hnext, hprefix⟩
    exact not_isPrefix_spelling (hown next (List.mem_of_mem_head? hnext)) hl q cs hprefix
  have hspelled : isSpelledAhead (spelling q ++ (later ++ cs)) = true :=
    (isSpelledAhead_iff _).mpr ⟨q, List.prefix_append _ _⟩
  rw [spelling, List.cons_append] at hchild hspelled ⊢
  rw [scan, if_neg hchild, if_pos hspelled]
  exact congrArg _ (scan_skip own [q.char, ' ', q.char, '}'] (later ++ cs))

/-- Blanks before anything else are one run. -/
theorem scan_blanks {own : List (List Char)} (hown : ∀ next ∈ own, IsOwn next) {run : List Char}
    (h : IsBlankRun run) (hne : run ≠ []) {cs : List Char}
    (hcs : startsBlank (scan 0 own cs) = false) :
    scan 0 own (run ++ cs) = blanks run :: scan 0 own cs := by
  have hplain (c : Char) (hc : c ∈ run) : IsPlain c := by
    constructor <;> rintro rfl <;> exact absurd (h _ hc) (by decide)
  rw [scan_text hown hplain, foldr_push_blanks h hne hcs]

theorem scan_break {own : List (List Char)} (hown : ∀ next ∈ own, IsOwn next)
    {run : List Char} (h : IsBreak run) {cs : List Char}
    (hcs : startsBlank (scan 0 own cs) = false) :
    scan 0 own (run ++ cs) = blanks run :: scan 0 own cs :=
  scan_blanks hown h.2 (List.ne_nil_of_mem h.1) hcs

/-! ## Reading what is set out -/

/-- A line break that is not between two words is read away. -/
theorem marks_break {run : List Char} (h : IsBreak run) {before : Bool} {rest : List Lexeme}
    (hapart : (before && rest.head?.any isWord) = false) :
    marks before (blanks run :: rest) = marks false rest := by
  rw [marks, if_neg (by simp [h.1, hapart])]

theorem marks_of_not_startsBlank (before : Bool) {lexemes : List Lexeme}
    (h : startsBlank lexemes = false) : marks before lexemes = marks false lexemes := by
  rcases lexemes with _ | ⟨_ | _ | _ | _, _⟩ <;> simp_all [marks, startsBlank]

/-- A space spelled out before a line break is **read as one space**. -/
theorem scan_spelled {own : List (List Char)} (hown : ∀ next ∈ own, IsOwn next) (q : Quote)
    {later cs : List Char} (hlater : IsBreak later) (hcs : startsBlank (scan 0 own cs) = false) :
    scan 0 own (spelling q ++ (later ++ cs)) = spelled :: blanks later :: scan 0 own cs ∧
      marks false (spelled :: blanks later :: scan 0 own cs) =
        .space :: marks false (scan 0 own cs) := by
  constructor
  · rw [scan_spelling hown q hlater cs, scan_break hown hlater hcs]
  · rw [marks, marks_break hlater (by simp)]

/-- A **gap** adds the space it stands for to what is read after it, and keeps two words apart. -/
theorem scan_gap {q : Quote} {own : List (List Char)} (hown : ∀ next ∈ own, IsOwn next)
    {before space : Bool} {run cs : List Char}
    (h : Gap q before space ((scan 0 own cs).head?.any isWord) run)
    (hcs : startsBlank (scan 0 own cs) = false) :
    (before = true → (scan 0 own (run ++ cs)).head?.any isWord = false) ∧
    marks before (scan 0 own (run ++ cs)) =
      (if space then [.space] else []) ++ marks false (scan 0 own cs) := by
  generalize hafter : (scan 0 own cs).head?.any isWord = after at h
  cases h with
  | none h apart =>
    subst hafter
    obtain rfl | h := h
    · refine ⟨?_, marks_of_not_startsBlank before hcs⟩
      rintro rfl
      simpa using apart
    · rw [scan_break hown h hcs, marks_break h apart]
      exact ⟨fun _ => rfl, rfl⟩
  | betweenWords h =>
    rw [scan_break hown h hcs, marks, if_pos (by simp [hafter])]
    exact ⟨fun _ => rfl, rfl⟩
  | plain =>
    rw [scan_blanks hown (by simp [IsBlankRun]; rfl) (by simp) hcs, marks, if_pos (by simp)]
    exact ⟨fun _ => rfl, rfl⟩
  | @spelled run later _ _ h hlater =>
    obtain ⟨hspelled, hmarks⟩ := scan_spelled hown q hlater hcs
    rw [List.append_assoc, List.append_assoc]
    obtain rfl | h := h
    · rw [List.nil_append, hspelled, marks_of_not_startsBlank before rfl, hmarks]
      exact ⟨fun _ => rfl, rfl⟩
    · have hstarts : startsBlank (scan 0 own (spelling q ++ (later ++ cs))) = false := by
        rw [hspelled]
        rfl
      rw [scan_break hown h hstarts, hspelled, marks_break h (by simp [isWord]), hmarks]
      exact ⟨fun _ => rfl, rfl⟩

namespace Sets

variable {q : Quote} {before : Bool} {r : Reading Lexeme} {cs : List Char}

/-- The children that are set out can be told from spaces. -/
theorem isOwn (h : Sets q before r cs) : ∀ own ∈ children (r.items.map Prod.snd), IsOwn own := by
  induction h with
  | done => simp [children]
  | item h content hs ih =>
    rcases content with _ | hown
    · exact ih
    · simpa [children] using ⟨hown, ih⟩

theorem ofMarks_scan (h : Sets q before r cs) :
    (before = true →
      (scan 0 (children (r.items.map Prod.snd)) cs).head?.any isWord = false) ∧
    Reading.ofMarks (marks before (scan 0 (children (r.items.map Prod.snd)) cs)) = r := by
  induction h with
  | @done before space run h =>
    obtain ⟨hword, hmarks⟩ := @scan_gap q [] (by simp) before space run [] h rfl
    rw [List.append_nil] at hword hmarks
    refine ⟨hword, ?_⟩
    rw [List.map_nil, children, hmarks]
    cases space <;> rfl
  | @item before space r run cs ds x h content hs ih =>
    have hown : ∀ own ∈ children (x :: r.items.map Prod.snd), IsOwn own :=
      (Sets.item h content hs).isOwn
    have hscan : scan 0 (children (x :: r.items.map Prod.snd)) (cs ++ ds) =
        x :: scan 0 (children (r.items.map Prod.snd)) ds := by
      rcases content with ⟨hword, plain⟩ | hchild
      · rw [show children (word cs :: r.items.map Prod.snd) =
          children (r.items.map Prod.snd) from rfl, scan_text hs.isOwn plain,
          foldr_push_word hword (ih.1 rfl)]
      · rw [children, scan_child _ hchild.ne_nil ds]
    have hx : startsBlank (x :: scan 0 (children (r.items.map Prod.snd)) ds) = false := by
      rcases content with _ | _ <;> rfl
    have hmarks : marks false (x :: scan 0 (children (r.items.map Prod.snd)) ds) =
        .item x :: marks x.isWord (scan 0 (children (r.items.map Prod.snd)) ds) := by
      rcases content with _ | _ <;> rfl
    rw [← hscan] at hx
    obtain ⟨hfirst, hgap⟩ := scan_gap hown (by simpa [hscan] using h) hx
    refine ⟨hfirst, ?_⟩
    rw [List.map_cons, hgap, hscan, hmarks]
    cases space with
    | false => exact congrArg (Reading.consItem x) ih.2
    | true => exact congrArg (fun r => (Reading.consItem x r).consSpace) ih.2

/-- What is **set out reads as given**. -/
theorem read_scan (h : Sets q false r cs) :
    read (scan 0 (children (r.items.map Prod.snd)) cs) = r := h.ofMarks_scan.2

end Sets

end Lexeme

end Reflow
