/-!
# Proofs/Text/Reading — what is left of whitespace once it is read

A reader keeps two things of a row of items: which items there are, and where at least one space
stands that matters.  Several such spaces in one place count once, so a reading has one flag before
each item and one at the end.
-/

namespace Reflow

universe u v

variable {α : Type u}

/-- What stands in a row that is read: an item, or a space that matters. -/
inductive Mark (α : Type u) where
  | item (x : α)
  | space
  deriving DecidableEq, Repr

/-- The item of a mark. -/
def Mark.item? : Mark α → Option α
  | item x => some x
  | space => none

/-- The same mark with another item. -/
def Mark.map {β : Type v} (f : α → β) : Mark α → Mark β
  | item x => item (f x)
  | space => space

/-- A **reading**: the items in order, each with whether a space stands before it, and whether a
space stands at the end. -/
structure Reading (α : Type u) where
  items : List (Bool × α)
  spaceAtEnd : Bool
  deriving DecidableEq, Repr

namespace Reading

/-- The reading of nothing. -/
def nil : Reading α := ⟨[], false⟩

/-- An item before what has been read. -/
def consItem (x : α) (r : Reading α) : Reading α := { r with items := (false, x) :: r.items }

/-- A space before what has been read: it stands before the first item, or at the end. -/
def consSpace (r : Reading α) : Reading α :=
  match r.items with
  | [] => { r with spaceAtEnd := true }
  | (_, x) :: rest => { r with items := (true, x) :: rest }

/-- **Reading** a row of marks. -/
def ofMarks : List (Mark α) → Reading α
  | [] => nil
  | .item x :: marks => (ofMarks marks).consItem x
  | .space :: marks => (ofMarks marks).consSpace

/-- Whether a space stands before everything else. -/
def spaceAtStart (r : Reading α) : Bool :=
  match r.items with
  | [] => r.spaceAtEnd
  | (space, _) :: _ => space

/-! ## Reading mark by mark -/

@[simp] theorem ofMarks_nil : ofMarks ([] : List (Mark α)) = nil := rfl

@[simp] theorem ofMarks_item (x : α) (marks : List (Mark α)) :
    ofMarks (.item x :: marks) = (ofMarks marks).consItem x := rfl

@[simp] theorem ofMarks_space (marks : List (Mark α)) :
    ofMarks (.space :: marks) = (ofMarks marks).consSpace := rfl

/-- A second space in one place says nothing new. -/
@[simp] theorem consSpace_consSpace (r : Reading α) : r.consSpace.consSpace = r.consSpace := by
  obtain ⟨items, spaceAtEnd⟩ := r
  cases items <;> rfl

@[simp] theorem spaceAtStart_consSpace (r : Reading α) : r.consSpace.spaceAtStart = true := by
  obtain ⟨items, spaceAtEnd⟩ := r
  cases items <;> rfl

@[simp] theorem spaceAtStart_consItem (x : α) (r : Reading α) :
    (r.consItem x).spaceAtStart = false := rfl

@[simp] theorem map_snd_items_consSpace (r : Reading α) :
    r.consSpace.items.map Prod.snd = r.items.map Prod.snd := by
  obtain ⟨items, spaceAtEnd⟩ := r
  cases items <;> rfl

/-- **No item is lost or repeated** by reading. -/
theorem map_snd_items_ofMarks (marks : List (Mark α)) :
    (ofMarks marks).items.map Prod.snd = marks.filterMap Mark.item? := by
  induction marks with
  | nil => rfl
  | cons mark marks ih =>
    cases mark with
    | item x => simp [consItem, Mark.item?, ih]
    | space => simp [List.filterMap_cons, Mark.item?, ih]

/-- What is read in front depends only on how the rest reads. -/
theorem ofMarks_append_congr {xs ys : List (Mark α)} (front : List (Mark α))
    (h : ofMarks xs = ofMarks ys) : ofMarks (front ++ xs) = ofMarks (front ++ ys) := by
  induction front with
  | nil => exact h
  | cons mark front ih => cases mark <;> simp [ih]

/-- A space stands at the start exactly if the first mark is one. -/
theorem spaceAtStart_ofMarks (marks : List (Mark α)) :
    (ofMarks marks).spaceAtStart = true ↔ marks.head? = some .space := by
  cases marks with
  | nil => simp [spaceAtStart, nil]
  | cons mark marks => cases mark <;> simp

/-- A space stands at the end exactly if the last mark is one. -/
theorem spaceAtEnd_ofMarks (marks : List (Mark α)) :
    (ofMarks marks).spaceAtEnd = true ↔ marks.getLast? = some .space := by
  induction marks with
  | nil => simp [nil]
  | cons mark marks ih =>
    cases marks with
    | nil => cases mark <;> simp [nil, consItem, consSpace]
    | cons next rest =>
      rw [List.getLast?_cons_cons, ← ih]
      cases mark with
      | item x => rfl
      | space =>
        rw [ofMarks_space, consSpace]
        -- with items after it, the space is no space at the end; without any, the rest is spaces
        split
        · next h =>
          cases next with
          | item x => simp [consItem] at h
          | space =>
            rw [ofMarks_space, consSpace]
            split <;> simp_all [consSpace]
        · rfl

/-! ## Other items -/

section Map

variable {β : Type v} (f : α → β)

/-- The same reading of other items. -/
def map (r : Reading α) : Reading β := ⟨r.items.map (Prod.map id f), r.spaceAtEnd⟩

@[simp] theorem map_consItem (x : α) (r : Reading α) :
    (r.consItem x).map f = (r.map f).consItem (f x) := rfl

@[simp] theorem map_consSpace (r : Reading α) : r.consSpace.map f = (r.map f).consSpace := by
  obtain ⟨items, spaceAtEnd⟩ := r
  rcases items with _ | ⟨⟨space, x⟩, items⟩ <;> rfl

theorem map_ofMarks (marks : List (Mark α)) :
    (ofMarks marks).map f = ofMarks (marks.map (Mark.map f)) := by
  induction marks with
  | nil => rfl
  | cons mark marks ih =>
    rcases mark with x | _
    · simp [Mark.map, ih]
    · simp [Mark.map, ih]

end Map

end Reading

end Reflow
