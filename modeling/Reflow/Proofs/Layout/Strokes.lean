import Mathlib.Data.List.DropRight
import Mathlib.Data.List.Forall2
import Reflow.Proofs.Layout.Lines
import Reflow.Proofs.Layout.Neat
import Reflow.Proofs.Layout.Stable

/-!
# Proofs/Layout/Strokes — empty lines and the column

The break of an empty line leaves the column where it was, so behind it the column is not that of
the line any more until the line is broken again.  A layout is set **stroke by stroke** along one of
its paths (`Layout.exists_path_set`), and a path may run so that nothing shows on a line that lacks
its indentation (`Stroke.Runs`).  Then every break of an empty line is followed by another break
before anything shows (`Stroke.Runs.breaksFollow`), and wherever something shows the column is that
of the line in the output (`Stroke.Runs.inColumn`).
-/

namespace Reflow

/-! ## The line that pieces end on -/

namespace Piece

/-- The columns a piece **takes on its line**. -/
def columns : Piece → Nat
  | text s => Text.width s
  | spaces n => n
  | newline _ | blankLine => 0

/-- Pieces **end on a line** with this indentation and these pieces behind it.  It is the first
line, or a line break wrote the indentation; behind the break of an empty line there is none. -/
structure EndsOn (pieces : List Piece) (indent : Nat) (line : List Piece) : Prop where
  start : pieces = line ∧ indent = 0 ∨ ∃ earlier, pieces = earlier ++ newline indent :: line
  onLine : OnOneLine line

/-- Pieces **in their column**: it is that of the line they end on, its indentation and what stands
behind it, and so that line is written in the output. -/
def InColumn (o : LayoutOptions) (pieces : List Piece) : Prop :=
  ∃ indent line, EndsOn pieces indent line ∧
    columnAfterAll 0 pieces = indent + (line.map columns).sum ∧
    (write o pieces).toList.rtakeWhile (· ≠ '\n') = indentation o indent ++ line.flatMap (chars o)

variable {pieces line : List Piece} {indent : Nat}

/-- Behind a line break **the last line begins**. -/
theorem rtakeWhile_append_lineBreak (lineBreak : LineBreak) (front : List Char) {last : List Char}
    (h : '\n' ∉ last) :
    (front ++ (lineBreak.chars ++ last)).rtakeWhile (· ≠ '\n') = last := by
  have hlast : ∀ c ∈ last.reverse, decide (c ≠ '\n') = true := fun c hc =>
    decide_eq_true (ne_of_mem_of_not_mem (List.mem_reverse.mp hc) h)
  rw [List.rtakeWhile, List.reverse_append, List.reverse_append, List.append_assoc,
    List.takeWhile_append_of_pos hlast, List.reverse_append, List.reverse_reverse]
  cases lineBreak <;> rfl

theorem columnAfterAll_of_onOneLine (column : Nat) (h : OnOneLine line) :
    columnAfterAll column line = column + (line.map columns).sum := by
  induction line generalizing column with
  | nil => rfl
  | cons piece line ih =>
    obtain ⟨hpiece, hline⟩ := List.forall_mem_cons.mp h
    have hcolumn : piece.columnAfter column = column + piece.columns := by
      cases piece with
      | text | spaces => rfl
      | newline | blankLine => cases hpiece
    rw [columnAfterAll_cons, hcolumn, ih _ hline, List.map_cons, List.sum_cons, Nat.add_assoc]

namespace EndsOn

theorem nil : EndsOn [] 0 [] := ⟨.inl ⟨rfl, rfl⟩, nofun⟩

theorem newline (pieces : List Piece) (indent : Nat) :
    EndsOn (pieces ++ [.newline indent]) indent [] :=
  ⟨.inr ⟨pieces, rfl⟩, nofun⟩

theorem concat (h : EndsOn pieces indent line) {piece : Piece} (hpiece : piece.endsLine = false) :
    EndsOn (pieces ++ [piece]) indent (line ++ [piece]) := by
  refine ⟨?_, onOneLine_append.mpr ⟨h.onLine, List.forall_mem_singleton.mpr hpiece⟩⟩
  obtain ⟨rfl, hindent⟩ | ⟨earlier, rfl⟩ := h.start
  · exact .inl ⟨rfl, hindent⟩
  · exact .inr ⟨earlier, by rw [List.append_assoc, List.cons_append]⟩

theorem columnAfterAll_eq (h : EndsOn pieces indent line) :
    columnAfterAll 0 pieces = indent + (line.map columns).sum := by
  obtain ⟨rfl, rfl⟩ | ⟨earlier, rfl⟩ := h.start
  · exact columnAfterAll_of_onOneLine 0 h.onLine
  · rw [columnAfterAll_append, columnAfterAll_cons]
    exact columnAfterAll_of_onOneLine indent h.onLine

/-- What stands behind the last line feed **is the line**. -/
theorem rtakeWhile_write (h : EndsOn pieces indent line) (o : LayoutOptions)
    (htexts : ∀ s, .text s ∈ pieces → '\n' ∉ s.toList) :
    (write o pieces).toList.rtakeWhile (· ≠ '\n') =
      indentation o indent ++ line.flatMap (chars o) := by
  have hline (hmem : ∀ piece ∈ line, piece ∈ pieces) : '\n' ∉ line.flatMap (chars o) := by
    intro hfeed
    obtain ⟨piece, hpiece, hfeed⟩ := List.mem_flatMap.mp hfeed
    cases piece with
    | text s => exact htexts s (hmem _ hpiece) hfeed
    | spaces n => exact absurd (List.eq_of_mem_replicate hfeed) (by decide)
    | newline | blankLine => cases h.onLine _ hpiece
  rw [toList_write]
  obtain ⟨rfl, rfl⟩ | ⟨earlier, rfl⟩ := h.start
  · rw [indentation_zero, List.nil_append, List.rtakeWhile_eq_self_iff]
    intro c hc
    exact decide_eq_true (ne_of_mem_of_not_mem hc (hline fun _ => id))
  · have hlast : '\n' ∉ indentation o indent ++ line.flatMap (chars o) :=
      List.not_mem_append (not_mem_indentation o indent)
        (hline fun _ hpiece => List.mem_append_right earlier (List.mem_cons_of_mem _ hpiece))
    rw [List.flatMap_append, List.flatMap_cons, chars, List.append_assoc,
      rtakeWhile_append_lineBreak _ _ hlast]

theorem inColumn (h : EndsOn pieces indent line) (o : LayoutOptions)
    (htexts : ∀ s, .text s ∈ pieces → '\n' ∉ s.toList) : InColumn o pieces :=
  ⟨indent, line, h, h.columnAfterAll_eq, h.rtakeWhile_write o htexts⟩

end EndsOn

end Piece

/-! ## Strokes -/

/-- A **stroke**: what one leaf of a layout sets, with the indentation it has there. -/
inductive Stroke where
  | text (s : String)
  | newline (indent : Nat)
  | blankLine
  /-- Spaces, or a line break, by the group. -/
  | softBreak (spaces indent : Nat)
  deriving DecidableEq, Repr

/-- How the line **starts** that the next stroke is set on. -/
inductive LineStart where
  /-- With its indentation, or as the first line. -/
  | indented
  /-- Behind the break of an empty line. -/
  | bare
  deriving DecidableEq, Repr

namespace Stroke

/-- The pieces a stroke **may be written as**. -/
inductive Writes : Stroke → Piece → Prop
  | text (s : String) : Writes (text s) (.text s)
  | newline (indent : Nat) : Writes (newline indent) (.newline indent)
  | blankLine : Writes blankLine .blankLine
  | spaces (n indent : Nat) : Writes (softBreak n indent) (.spaces n)
  | softNewline (n indent : Nat) : Writes (softBreak n indent) (.newline indent)

/-- Only texts are written as texts. -/
theorem text_mem_of_written {strokes : List Stroke} {pieces : List Piece}
    (h : List.Forall₂ Writes strokes pieces) {s : String} (hs : .text s ∈ pieces) :
    .text s ∈ strokes := by
  induction h with
  | nil => cases hs
  | cons hwrites _ ih =>
    obtain heq | hlater := List.mem_cons.mp hs
    · subst heq
      cases hwrites
      exact List.mem_cons_self
    · exact List.mem_cons_of_mem _ (ih hlater)

/-- Whether something **shows**: a text that is not empty, or a soft break. -/
def shows : Stroke → Bool
  | text s => s ≠ ""
  | softBreak .. => true
  | newline _ | blankLine => false

/-- Whether a stroke breaks the line, **whatever the group**. -/
def breaksLine : Stroke → Bool
  | newline _ | blankLine => true
  | text _ | softBreak .. => false

/-- Every break of an empty line is **followed by a line break**, and nothing shows in between. -/
def BreaksFollow (strokes : List Stroke) : Prop :=
  ∀ before after, strokes = before ++ blankLine :: after →
    ∃ between next later, after = between ++ next :: later ∧
      (∀ stroke ∈ between, stroke.shows = false) ∧ next.breaksLine = true

/-- Strokes that **run** from one start of a line to another: nothing shows on a
line that starts bare. -/
inductive Runs : LineStart → List Stroke → LineStart → Prop
  | nil (start : LineStart) : Runs start [] start
  | noText {start stop : LineStart} {strokes : List Stroke} (h : Runs start strokes stop) :
      Runs start (text "" :: strokes) stop
  | text (s : String) {stop : LineStart} {strokes : List Stroke} (h : Runs .indented strokes stop) :
      Runs .indented (text s :: strokes) stop
  | softBreak (n indent : Nat) {stop : LineStart} {strokes : List Stroke}
      (h : Runs .indented strokes stop) : Runs .indented (softBreak n indent :: strokes) stop
  | newline (start : LineStart) (indent : Nat) {stop : LineStart} {strokes : List Stroke}
      (h : Runs .indented strokes stop) : Runs start (newline indent :: strokes) stop
  | blankLine (start : LineStart) {stop : LineStart} {strokes : List Stroke}
      (h : Runs .bare strokes stop) : Runs start (blankLine :: strokes) stop

namespace Runs

variable {start middle stop : LineStart} {xs ys strokes : List Stroke}

theorem append (h : Runs start xs middle) (h' : Runs middle ys stop) :
    Runs start (xs ++ ys) stop := by
  induction h with
  | nil => exact h'
  | noText _ ih => exact .noText (ih h')
  | text s _ ih => exact .text s (ih h')
  | softBreak n indent _ ih => exact .softBreak n indent (ih h')
  | newline start indent _ ih => exact .newline start indent (ih h')
  | blankLine start _ ih => exact .blankLine start (ih h')

/-- Strokes run **through every place** among them. -/
theorem exists_of_append (h : Runs start (xs ++ ys) stop) :
    ∃ middle, Runs start xs middle ∧ Runs middle ys stop := by
  induction xs generalizing start with
  | nil => exact ⟨start, .nil start, h⟩
  | cons stroke xs ih =>
    cases h with
    | noText h => exact (ih h).imp fun _ => .imp_left .noText
    | text s h => exact (ih h).imp fun _ => .imp_left (.text s)
    | softBreak n indent h => exact (ih h).imp fun _ => .imp_left (.softBreak n indent)
    | newline _ indent h => exact (ih h).imp fun _ => .imp_left (.newline start indent)
    | blankLine _ h => exact (ih h).imp fun _ => .imp_left (.blankLine start)

/-- Nothing shows on a **bare** line. -/
theorem eq_indented_of_shows {stroke : Stroke} (h : Runs start (stroke :: strokes) stop)
    (hshows : stroke.shows = true) : start = .indented := by
  cases h with
  | noText => simp [shows] at hshows
  | text | softBreak => rfl
  | newline | blankLine => cases hshows

/-- A bare line is left by **breaking it again**. -/
theorem exists_break (h : Runs .bare strokes .indented) :
    ∃ between next later, strokes = between ++ next :: later ∧
      (∀ stroke ∈ between, stroke.shows = false) ∧ next.breaksLine = true := by
  induction strokes with
  | nil => cases h
  | cons stroke strokes ih =>
    cases h with
    | noText h =>
      obtain ⟨between, next, later, rfl, hbetween, hnext⟩ := ih h
      exact ⟨.text "" :: between, next, later, rfl,
        List.forall_mem_cons.mpr ⟨by decide, hbetween⟩, hnext⟩
    | newline _ indent => exact ⟨[], .newline indent, strokes, rfl, nofun, rfl⟩
    | blankLine => exact ⟨[], .blankLine, strokes, rfl, nofun, rfl⟩

theorem breaksFollow (h : Runs start strokes .indented) : BreaksFollow strokes := by
  rintro before after rfl
  obtain ⟨middle, -, hafter⟩ := h.exists_of_append
  cases hafter with
  | blankLine _ hafter => exact hafter.exists_break

/-- Written behind pieces that end on an indented line, strokes that run to one **end on one**. -/
theorem exists_endsOn (h : Runs start strokes stop) {front pieces : List Piece}
    (hwritten : List.Forall₂ Writes strokes pieces)
    (hfront : start = .indented → ∃ indent line, Piece.EndsOn front indent line)
    (hstop : stop = .indented) : ∃ indent line, Piece.EndsOn (front ++ pieces) indent line := by
  have hconcat {start : LineStart} {front : List Piece} (piece : Piece)
      (hpiece : piece.endsLine = false)
      (hfront : start = .indented → ∃ indent line, Piece.EndsOn front indent line)
      (hstart : start = .indented) :
          ∃ indent line, Piece.EndsOn (front ++ [piece]) indent line := by
    obtain ⟨indent, line, hends⟩ := hfront hstart
    exact ⟨indent, line ++ [piece], hends.concat hpiece⟩
  induction h generalizing front pieces with
  | nil =>
    cases hwritten
    rw [List.append_nil]
    exact hfront hstop
  | noText _ ih =>
    obtain _ | ⟨⟨⟩, hwritten⟩ := hwritten
    rw [List.append_cons]
    exact ih hwritten (hconcat _ rfl hfront) hstop
  | text s _ ih =>
    obtain _ | ⟨⟨⟩, hwritten⟩ := hwritten
    rw [List.append_cons]
    exact ih hwritten (hconcat _ rfl hfront) hstop
  | softBreak n indent _ ih =>
    obtain _ | ⟨⟨⟩, hwritten⟩ := hwritten
    · rw [List.append_cons]
      exact ih hwritten (hconcat _ rfl hfront) hstop
    · rw [List.append_cons]
      exact ih hwritten (fun _ => ⟨indent, [], .newline front indent⟩) hstop
  | newline _ indent _ ih =>
    obtain _ | ⟨⟨⟩, hwritten⟩ := hwritten
    rw [List.append_cons]
    exact ih hwritten (fun _ => ⟨indent, [], .newline front indent⟩) hstop
  | blankLine _ _ ih =>
    obtain _ | ⟨⟨⟩, hwritten⟩ := hwritten
    rw [List.append_cons]
    exact ih hwritten nofun hstop

/-- Where something shows, the pieces in front of it are **in their column**. -/
theorem inColumn (h : Runs .indented strokes stop) {pieces : List Piece}
    (hwritten : List.Forall₂ Writes strokes pieces) (o : LayoutOptions)
    (htexts : ∀ s, .text s ∈ strokes → '\n' ∉ s.toList) {i : Nat} {stroke : Stroke}
    (hi : strokes[i]? = some stroke) (hshows : stroke.shows = true) :
    Piece.InColumn o (pieces.take i) := by
  obtain ⟨hlt, rfl⟩ := List.getElem?_eq_some_iff.mp hi
  have hsplit : strokes.take i ++ strokes[i] :: strokes.drop (i + 1) = strokes := by
    rw [← List.drop_eq_getElem_cons, List.take_append_drop]
  rw [← hsplit] at h
  obtain ⟨middle, hbefore, hafter⟩ := h.exists_of_append
  obtain ⟨indent, line, hends⟩ := hbefore.exists_endsOn (List.forall₂_take i hwritten)
    (fun _ => ⟨0, [], .nil⟩) (hafter.eq_indented_of_shows hshows)
  refine hends.inColumn o fun s hs => htexts s ?_
  exact text_mem_of_written hwritten (List.mem_of_mem_take hs)

end Runs

end Stroke

/-! ## Paths through a layout -/

namespace Layout

/-- The strokes along a **path** through a layout that is indented by so many columns: of each
choice and of each attempt it takes one side, whichever that is. -/
inductive Path : Nat → Layout → List Stroke → Prop
  | nil (indent : Nat) : Path indent nil []
  | text (indent : Nat) (s : String) : Path indent (text s) [.text s]
  | newline (indent : Nat) : Path indent newline [.newline indent]
  | blankLine (indent : Nat) : Path indent blankLine [.blankLine]
  | softBreak (indent n : Nat) : Path indent (softBreak n) [.softBreak n indent]
  | flat {indent : Nat} {flat : Layout} (broken : Layout) {strokes : List Stroke}
      (h : Path indent flat strokes) : Path indent (choice flat broken) strokes
  | broken {indent : Nat} (flat : Layout) {broken : Layout} {strokes : List Stroke}
      (h : Path indent broken strokes) : Path indent (choice flat broken) strokes
  | attempt {indent : Nat} {attempt : Layout} (fallback : Layout) {strokes : List Stroke}
      (h : Path indent attempt strokes) : Path indent (firstFit attempt fallback) strokes
  | fallback {indent : Nat} (attempt : Layout) {fallback : Layout} {strokes : List Stroke}
      (h : Path indent fallback strokes) : Path indent (firstFit attempt fallback) strokes
  | nest {indent columns : Nat} {body : Layout} {strokes : List Stroke}
      (h : Path (indent + columns) body strokes) : Path indent (nest columns body) strokes
  | group {indent : Nat} {body : Layout} {strokes : List Stroke} (h : Path indent body strokes) :
      Path indent (group body) strokes
  | seq {indent : Nat} {first second : Layout} {xs ys : List Stroke} (h : Path indent first xs)
      (h' : Path indent second ys) : Path indent (seq first second) (xs ++ ys)

/-- A layout is set **along a path**, at every width and wherever it stands. -/
theorem exists_path_set (width : Nat) (layout : Layout) (mode : Mode) (indent : Nat) (rest : Rest)
    (column : Nat) :
    ∃ strokes, Path indent layout strokes ∧
      List.Forall₂ Stroke.Writes strokes (layout.set width mode indent rest column) := by
  induction layout generalizing mode indent rest column with
  | nil => exact ⟨[], .nil indent, .nil⟩
  | text s => exact ⟨[.text s], .text indent s, .cons (.text s) .nil⟩
  | newline => exact ⟨[.newline indent], .newline indent, .cons (.newline indent) .nil⟩
  | blankLine => exact ⟨[.blankLine], .blankLine indent, .cons .blankLine .nil⟩
  | softBreak n =>
    refine ⟨[.softBreak n indent], .softBreak indent n, ?_⟩
    cases mode with
    | flat => exact .cons (.spaces n indent) .nil
    | broken => exact .cons (.softNewline n indent) .nil
  | choice flat broken ihFlat ihBroken =>
    cases mode with
    | flat => exact (ihFlat .flat indent rest column).imp fun _ => .imp_left (.flat broken)
    | broken => exact (ihBroken .broken indent rest column).imp fun _ => .imp_left (.broken flat)
  | firstFit attempt fallback ihAttempt ihFallback =>
    rw [set]
    split_ifs
    · exact (ihAttempt mode indent [] column).imp fun _ => .imp_left (.attempt fallback)
    · exact (ihFallback mode indent rest column).imp fun _ => .imp_left (.fallback attempt)
  | nest columns body ih =>
    exact (ih mode (indent + columns) rest column).imp fun _ => .imp_left .nest
  | group body ih =>
    cases mode with
    | flat => exact (ih .flat indent rest column).imp fun _ => .imp_left .group
    | broken =>
      rw [set]
      split_ifs
      · exact (ih .flat indent rest column).imp fun _ => .imp_left .group
      · exact (ih .broken indent rest column).imp fun _ => .imp_left .group
  | seq first second ihFirst ihSecond =>
    obtain ⟨xs, hxs, hwritten⟩ := ihFirst mode indent ((mode, second) :: rest) column
    obtain ⟨ys, hys, hwritten'⟩ := ihSecond mode indent rest (Piece.columnAfterAll column
      (first.set width mode indent ((mode, second) :: rest) column))
    exact ⟨xs ++ ys, .seq hxs hys, List.rel_append hwritten hwritten'⟩

/-- The texts along a path are **texts of the layout**. -/
theorem IsLeveled.path {P : String → Prop} {columns : Nat} {layout : Layout}
    (h : layout.IsLeveled P columns) {indent : Nat} {strokes : List Stroke}
    (hpath : Path indent layout strokes) : ∀ s, .text s ∈ strokes → P s := by
  induction hpath with
  | nil | newline | blankLine | softBreak => simp
  | text indent s =>
    intro t ht
    cases List.mem_singleton.mp ht
    exact h
  | flat _ _ ih | attempt _ _ ih => exact ih h.1
  | broken _ _ ih | fallback _ _ ih => exact ih h.2
  | nest _ ih => exact ih h.2
  | group _ ih => exact ih h
  | seq _ _ ih ih' =>
    intro s hs
    exact (List.mem_append.mp hs).elim (ih h.1 s) (ih' h.2 s)

/-- A layout whose strokes run from one start of a line to another, **along every path**. -/
def RunsTo (start : LineStart) (layout : Layout) (stop : LineStart) : Prop :=
  ∀ indent strokes, Path indent layout strokes → Stroke.Runs start strokes stop

namespace RunsTo

variable {start middle stop : LineStart} {layout other : Layout}

theorem nil (start : LineStart) : RunsTo start nil start := by
  rintro _ _ ⟨⟩
  exact .nil start

theorem noText (start : LineStart) : RunsTo start (text "") start := by
  rintro _ _ ⟨⟩
  exact .noText (.nil start)

theorem text (s : String) : RunsTo .indented (text s) .indented := by
  rintro _ _ ⟨⟩
  exact .text s (.nil .indented)

theorem newline (start : LineStart) : RunsTo start newline .indented := by
  rintro indent _ ⟨⟩
  exact .newline start indent (.nil .indented)

theorem blankLine (start : LineStart) : RunsTo start blankLine .bare := by
  rintro _ _ ⟨⟩
  exact .blankLine start (.nil .bare)

theorem softBreak (n : Nat) : RunsTo .indented (softBreak n) .indented := by
  rintro indent _ ⟨⟩
  exact .softBreak n indent (.nil .indented)

theorem choice (h : RunsTo start layout stop) (h' : RunsTo start other stop) :
    RunsTo start (choice layout other) stop := by
  rintro indent strokes (_ | _)
  · exact h indent strokes ‹_›
  · exact h' indent strokes ‹_›

theorem firstFit (h : RunsTo start layout stop) (h' : RunsTo start other stop) :
    RunsTo start (firstFit layout other) stop := by
  rintro indent strokes (_ | _)
  · exact h indent strokes ‹_›
  · exact h' indent strokes ‹_›

theorem nest (h : RunsTo start layout stop) (columns : Nat) :
    RunsTo start (nest columns layout) stop := by
  rintro indent strokes ⟨⟩
  exact h (indent + columns) strokes ‹_›

theorem group (h : RunsTo start layout stop) : RunsTo start (group layout) stop := by
  rintro indent strokes ⟨⟩
  exact h indent strokes ‹_›

theorem seq (h : RunsTo start layout middle) (h' : RunsTo middle other stop) :
    RunsTo start (seq layout other) stop := by
  rintro indent _ ⟨⟩
  exact (h indent _ ‹_›).append (h' indent _ ‹_›)

end RunsTo

end Layout

end Reflow
