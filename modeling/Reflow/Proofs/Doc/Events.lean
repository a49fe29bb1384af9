import Reflow.Proofs.Doc.Outcome
import Reflow.Proofs.Layout.Columns

/-!
# Proofs/Doc/Events — what printing meets in a document

A document without choices is a row of texts, line breaks, suffixes and boundaries in their order,
once it is settled which of its groups are flat (`Doc.Traces`).  Printing goes through these
**events** with a list of what is waiting for the end of the line, which a break that is certain
prints and a break of a group that does not fit leaves alone.  So every suffix ends its line, unless
such a group breaks it first (`Event.suffixesEndLines`).
-/

namespace Reflow

/-! ## Items of output -/

/-- What is printed: a text, or a **line break**. -/
inductive Item where
  | text (s : String)
  | break
  deriving DecidableEq, Repr

/-- The items of a piece. -/
def Piece.items : Piece → List Item
  | text s => [.text s]
  | spaces n => List.replicate n (.text " ")
  | newline _ | blankLine => [.break]

namespace Item

/-- Items **spelled out**: texts as they are, and after a line break some indentation. -/
inductive Spelled (o : LayoutOptions) : List Item → List Char → Prop
  | nil : Spelled o [] []
  | text (s : String) {items : List Item} {cs : List Char} (h : Spelled o items cs) :
      Spelled o (.text s :: items) (s.toList ++ cs)
  | break (columns : Nat) {items : List Item} {cs : List Char} (h : Spelled o items cs) :
      Spelled o (.break :: items) (o.lineBreak.chars ++ Piece.indentation o columns ++ cs)

variable {o : LayoutOptions}

theorem Spelled.append {xs ys : List Item} {cs ds : List Char} (h : Spelled o xs cs)
    (h' : Spelled o ys ds) : Spelled o (xs ++ ys) (cs ++ ds) := by
  induction h with
  | nil => exact h'
  | text s _ ih =>
    rw [List.append_assoc]
    exact .text s ih
  | «break» columns _ ih =>
    rw [List.append_assoc]
    exact .break columns ih

theorem spelled_piece (o : LayoutOptions) (piece : Piece) :
    Spelled o piece.items (piece.chars o) := by
  cases piece with
  | text s =>
    have h := Spelled.text s (.nil : Spelled o [] [])
    rwa [List.append_nil] at h
  | spaces n =>
    induction n with
    | zero => exact .nil
    | succ n ih => exact .text " " ih
  | newline indent =>
    have h := Spelled.break indent (.nil : Spelled o [] [])
    rwa [List.append_nil] at h
  | blankLine =>
    have h := Spelled.break 0 (.nil : Spelled o [] [])
    rwa [Piece.indentation_zero, List.append_nil, List.append_nil] at h

/-- Pieces **spell out their items**. -/
theorem spelled_pieces (o : LayoutOptions) (pieces : List Piece) :
    Spelled o (pieces.flatMap Piece.items) (pieces.flatMap (Piece.chars o)) := by
  induction pieces with
  | nil => exact .nil
  | cons piece pieces ih =>
    rw [List.flatMap_cons, List.flatMap_cons]
    exact (spelled_piece o piece).append ih

end Item

/-! ## What is held back -/

namespace Doc

mutual

/-- What a document **prints on one line**, with the line breaks it cannot do without, and without
what it holds back itself. -/
def onOneLine : Doc → List Item
  | text s => [.text s]
  | line .hard => [.break]
  | line .orSpace => [.text " "]
  | line .orNil | lineSuffix _ | suffixBoundary => []
  | concat docs | fill docs => allOnOneLine docs
  | indent doc | group _ doc => doc.onOneLine
  | ifBreak _ flat => flat.onOneLine
  | conditional variants => firstOnOneLine variants

def allOnOneLine : List Doc → List Item
  | [] => []
  | doc :: docs => doc.onOneLine ++ allOnOneLine docs

def firstOnOneLine : List Doc → List Item
  | [] => []
  | doc :: _ => doc.onOneLine

end

/-- What documents that are held back print **at the end of a line**. -/
def held (docs : List Doc) : List Item := docs.flatMap onOneLine

end Doc

/-! ## Events -/

/-- What **printing meets** in a document. -/
inductive Event where
  | text (s : String)
  /-- A line break that is certain. -/
  | break
  /-- A line break of a group that is broken by the width. -/
  | loose
  | suffix (contents : Doc)
  | boundary

namespace Event

open Doc (held)

/-- What is printed at an event, with documents **waiting** for the end of the line. -/
def emits (waiting : List Doc) : Event → List Item
  | text s => [.text s]
  | .break => held waiting ++ [.break]
  | loose => [.break]
  | suffix _ => []
  | boundary => if waiting.isEmpty then [] else held waiting ++ [.break]

/-- What is **waiting after** an event. -/
def leaves (waiting : List Doc) : Event → List Doc
  | text _ | loose => waiting
  | .break | boundary => []
  | suffix contents => waiting ++ [contents]

/-- What is printed at events, one after the other. -/
def emitted (waiting : List Doc) : List Event → List Item
  | [] => []
  | event :: events => event.emits waiting ++ emitted (event.leaves waiting) events

/-- What is waiting after events. -/
def stillWaiting (waiting : List Doc) : List Event → List Doc
  | [] => waiting
  | event :: events => stillWaiting (event.leaves waiting) events

/-- What events **print in all**: what is waiting at the end is printed there. -/
def printed (events : List Event) : List Item := emitted [] events ++ held (stillWaiting [] events)

theorem emitted_append (waiting : List Doc) (xs ys : List Event) :
    emitted waiting (xs ++ ys) = emitted waiting xs ++ emitted (stillWaiting waiting xs) ys := by
  induction xs generalizing waiting with
  | nil => rfl
  | cons event xs ih => rw [List.cons_append, emitted, emitted, ih, List.append_assoc, stillWaiting]

theorem stillWaiting_append (waiting : List Doc) (xs ys : List Event) :
    stillWaiting waiting (xs ++ ys) = stillWaiting (stillWaiting waiting xs) ys := by
  induction xs generalizing waiting with
  | nil => rfl
  | cons event xs ih => exact ih _

/-! ### Where a suffix is printed -/

/-- Whether **a line is ended for what is waiting**. -/
def endsLine : Event → Bool
  | .break | boundary => true
  | text _ | loose | suffix _ => false

/-- What is printed where it stands. -/
def item? : Event → Option Item
  | text s => some (.text s)
  | loose => some .break
  | .break | suffix _ | boundary => none

/-- What is held back. -/
def suffix? : Event → Option Doc
  | suffix contents => some contents
  | text _ | .break | loose | boundary => none

/-- While no line is ended, texts are **printed where they stand**, and suffixes wait. -/
theorem emitted_of_sameLine (waiting : List Doc) {events : List Event}
    (h : ∀ event ∈ events, event.endsLine = false) :
    emitted waiting events = events.filterMap item? ∧
      stillWaiting waiting events = waiting ++ events.filterMap suffix? := by
  induction events generalizing waiting with
  | nil => exact ⟨rfl, (List.append_nil waiting).symm⟩
  | cons event events ih =>
    obtain ⟨hevent, hevents⟩ := List.forall_mem_cons.mp h
    obtain ⟨hemitted, hwaiting⟩ := ih (event.leaves waiting) hevents
    rw [emitted, stillWaiting, hemitted, hwaiting]
    cases event with
    | text | loose => exact ⟨rfl, rfl⟩
    | suffix contents => exact ⟨rfl, List.append_cons .. |>.symm⟩
    | «break» | boundary => cases hevent

/-- The end of a line **prints all that is waiting**, and so does the end of everything. -/
theorem exists_emitted_eq {waiting : List Doc} (ne : waiting ≠ []) {after : List Event}
    (hafter : ∀ event ∈ after.head?, event.endsLine = true) :
    ∃ later, emitted waiting after ++ held (stillWaiting waiting after) = held waiting ++ later ∧
      later.head? = after.head?.map fun _ => .break := by
  cases after with
  | nil => exact ⟨[], (List.append_nil _).symm, rfl⟩
  | cons event after =>
    have hevent := hafter event rfl
    have hends : event.emits waiting = held waiting ++ [.break] := by
      cases event with
      | text | loose | suffix => cases hevent
      | «break» => rfl
      | boundary => rw [emits, if_neg (by simpa using ne)]
    refine ⟨.break :: (emitted (event.leaves waiting) after ++
      held (stillWaiting (event.leaves waiting) after)), ?_, rfl⟩
    rw [emitted, stillWaiting, hends, List.append_assoc, List.append_assoc, List.singleton_append]

/-- **Every suffix ends its line**: it is printed behind all that is printed where it stands
up to the end of the line, behind the suffixes that wait already and before those that come
to wait, and then the line is broken, or nothing follows.  Before that the line is only
broken by loose events. -/
def SuffixesEndLines (events : List Event) : Prop :=
  ∀ (before : List Event) (contents : Doc) (between after : List Event),
    events = before ++ suffix contents :: (between ++ after) →
    (∀ event ∈ between, event.endsLine = false) → (∀ event ∈ after.head?, event.endsLine = true) →
    (.loose ∉ between → .break ∉ between.filterMap item?) ∧
      ∃ later, printed events =
          emitted [] before ++ between.filterMap item? ++
            held (stillWaiting [] before ++ contents :: between.filterMap suffix?) ++ later ∧
        later.head? = after.head?.map fun _ => .break

theorem suffixesEndLines (events : List Event) : SuffixesEndLines events := by
  rintro before contents between after rfl hbetween hafter
  refine ⟨fun hloose hbreak => hloose ?_, ?_⟩
  · obtain ⟨event, hevent, hitem⟩ := List.mem_filterMap.mp hbreak
    cases event with
    | loose => exact hevent
    | text | «break» | suffix | boundary => cases hitem
  · obtain ⟨hemitted, hwaiting⟩ :=
      emitted_of_sameLine (stillWaiting [] before ++ [contents]) hbetween
    rw [← List.append_cons] at hwaiting
    obtain ⟨later, hlater, hhead⟩ := exists_emitted_eq
      (List.append_ne_nil_of_right_ne_nil (stillWaiting [] before) (List.cons_ne_nil contents
        (between.filterMap suffix?))) hafter
    refine ⟨later, ?_, hhead⟩
    rw [printed, emitted_append, stillWaiting_append, emitted, stillWaiting, emits, leaves,
      emitted_append, stillWaiting_append, hemitted, hwaiting, List.nil_append, List.append_assoc,
      List.append_assoc, hlater, List.append_assoc, List.append_assoc]

end Event

/-! ## Events of a document -/

/-- How the lines directly inside a group are printed. -/
inductive Fate where
  | flat
  /-- Broken, because the group is bound to break or is no group at all. -/
  | forced
  /-- Broken, because the group does not fit. -/
  | crowded
  deriving DecidableEq, Repr

namespace Fate

/-- The fate of the lines in a group of which this is known, in a layout that is set in a mode. -/
def of : GroupState → Mode → Fate
  | .flat, _ | .undecided, .flat => flat
  | .broken, _ => forced
  | .undecided, .broken => crowded

/-- A group inside a flat one is flat.  Elsewhere it is **forced** exactly if it
is bound to break. -/
def Inside (fate : Fate) (boundToBreak : Bool) (inner : Fate) : Prop :=
  match fate with
  | flat => inner = flat
  | forced | crowded => inner = forced ↔ boundToBreak = true

end Fate

namespace Doc

/-- A document **without choices** between documents. -/
inductive ChoiceFree : Doc → Prop
  | text (s : String) : ChoiceFree (text s)
  | concat {docs : List Doc} (h : ∀ doc ∈ docs, ChoiceFree doc) : ChoiceFree (concat docs)
  | line (kind : LineKind) : ChoiceFree (line kind)
  | indent {doc : Doc} (h : ChoiceFree doc) : ChoiceFree (indent doc)
  | group (shouldBreak : Bool) {doc : Doc} (h : ChoiceFree doc) : ChoiceFree (group shouldBreak doc)
  | fill {parts : List Doc} (h : ∀ doc ∈ parts, ChoiceFree doc) : ChoiceFree (fill parts)
  | lineSuffix {doc : Doc} (h : ChoiceFree doc) : ChoiceFree (lineSuffix doc)
  | suffixBoundary : ChoiceFree suffixBoundary

/-- A document without choices that need not break **holds nothing back**. -/
theorem ChoiceFree.suffixDepth_eq_zero {doc : Doc} (h : doc.ChoiceFree)
    (hbreak : doc.willBreak = false) : doc.suffixDepth = 0 := by
  induction h with
  | text | line | suffixBoundary => rfl
  | concat _ ih | fill _ ih =>
    rw [willBreak, anyWillBreak_eq_any, List.any_eq_false] at hbreak
    exact (maxSuffixDepth_eq_zero_iff _).mpr fun doc hdoc =>
      ih doc hdoc (Bool.eq_false_iff.mpr (hbreak doc hdoc))
  | indent _ ih => exact ih hbreak
  | group _ _ ih => exact ih (Bool.or_eq_false_iff.mp hbreak).2
  | lineSuffix => cases hbreak

mutual

/-- The **events of a document** whose lines have this fate: everything in its order, each line by
the fate of its group. -/
inductive Traces : Fate → Doc → List Event → Prop
  | text (fate : Fate) (s : String) : Traces fate (text s) [.text s]
  | nil (fate : Fate) : Traces fate (concat []) []
  | cons {fate : Fate} {doc : Doc} {docs : List Doc} {xs ys : List Event} (h : Traces fate doc xs)
      (h' : Traces fate (concat docs) ys) : Traces fate (concat (doc :: docs)) (xs ++ ys)
  | hard (fate : Fate) : Traces fate (line .hard) [.break]
  | space : Traces .flat (line .orSpace) [.text " "]
  | noSpace : Traces .flat (line .orNil) []
  | forced (kind : LineKind) : Traces .forced (line kind) [.break]
  | loose {kind : LineKind} (h : kind ≠ .hard) : Traces .crowded (line kind) [.loose]
  | indent {fate : Fate} {contents : Doc} {xs : List Event} (h : Traces fate contents xs) :
      Traces fate (indent contents) xs
  | group {fate inner : Fate} {shouldBreak : Bool} {contents : Doc} {xs : List Event}
      (inside : fate.Inside (shouldBreak || contents.willBreak) inner)
        (h : Traces inner contents xs) :
      Traces fate (group shouldBreak contents) xs
  | flatFill {parts : List Doc} {xs : List Event} (h : Traces .flat (concat parts) xs) :
      Traces .flat (fill parts) xs
  | fill {fate : Fate} {parts : List Doc} {xs : List Event} (h : ContentTraces fate parts xs) :
      Traces fate (fill parts) xs
  | lineSuffix (fate : Fate) (contents : Doc) : Traces fate (lineSuffix contents) [.suffix contents]
  | suffixBoundary (fate : Fate) : Traces fate suffixBoundary [.boundary]

/-- The events of the parts of a fill, a content first: each content is a group of its own. -/
inductive ContentTraces : Fate → List Doc → List Event → Prop
  | nil (fate : Fate) : ContentTraces fate [] []
  | cons {fate inner : Fate} {content : Doc} {parts : List Doc} {xs ys : List Event}
      (inside : fate.Inside content.willBreak inner) (h : Traces inner content xs)
      (h' : SeparatorTraces fate parts ys) : ContentTraces fate (content :: parts) (xs ++ ys)

/-- The events of the parts of a fill, a separator first: it is flat or forced, and forced if it is
bound to break. -/
inductive SeparatorTraces : Fate → List Doc → List Event → Prop
  | nil (fate : Fate) : SeparatorTraces fate [] []
  | cons {fate inner : Fate} {separator : Doc} {parts : List Doc} {xs ys : List Event}
      (bound : separator.willBreak = true → inner = .forced) (settled : inner ≠ .crowded)
      (h : Traces inner separator xs) (h' : ContentTraces fate parts ys) :
      SeparatorTraces fate (separator :: parts) (xs ++ ys)

end

end Doc

end Reflow
