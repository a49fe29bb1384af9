import Reflow.Proofs.Markup.Wrapped

/-!
# Proofs/Markup/Settled — merging once is enough

A step of merging looks at the part in front and the two behind it, and is over when it has taken
two of these away.  What it leaves may be two separators with nothing between them once more, so of
parts in general merging may find something to merge a second time.  Of the parts of children it
does not (`Part.merge_merge`): with text among them what is merged is compact, and without text
nothing is merged at all.
-/

namespace Reflow.Part

variable {hasText : Bool} {part : Part} {parts : List Part}

/-- **Settled parts**: at no position is there anything left to merge. -/
def Settled (hasText : Bool) (parts : List Part) : Prop :=
  ∀ part rest, part :: rest <:+ parts → mergeStep hasText part rest = part :: rest

theorem settled_nil : Settled hasText [] := by
  intro part rest hsuffix
  cases List.suffix_nil.mp hsuffix

theorem settled_cons :
    Settled hasText (part :: parts) ↔
      mergeStep hasText part parts = part :: parts ∧ Settled hasText parts := by
  constructor
  · exact fun h => ⟨h part parts (List.suffix_refl _),
      fun next rest hsuffix => h next rest (hsuffix.trans (List.suffix_cons part parts))⟩
  · rintro ⟨hstep, hsettled⟩ next rest hsuffix
    obtain heq | hlater := List.suffix_cons_iff.mp hsuffix
    · obtain ⟨rfl, rfl⟩ := List.cons.inj heq
      exact hstep
    · exact hsettled next rest hlater

namespace Settled

/-- Merging **leaves settled parts alone**. -/
theorem merge_eq (h : Settled hasText parts) : merge hasText parts = parts := by
  induction parts with
  | nil => rfl
  | cons part parts ih =>
    obtain ⟨hstep, hsettled⟩ := settled_cons.mp h
    rw [merge_cons, ih hsettled, hstep]

theorem cons_filled (filled : part.isFilled) (h : Settled hasText parts) :
    Settled hasText (part :: parts) :=
  settled_cons.mpr ⟨mergeStep_of_isFilled filled parts, h⟩

theorem cons_of_not_startsEmpty (part : Part) (hstarts : startsEmpty parts = false)
    (h : Settled hasText parts) : Settled hasText (part :: parts) :=
  settled_cons.mpr ⟨mergeStep_of_not_startsEmpty part hstarts, h⟩

end Settled

/-! ## With text -/

/-- **Compact parts are settled.**  Two soft lines are not joined, and on every other separator a
content follows that is there. -/
theorem Compact.settled {localized : Bool} (h : Compact localized parts) : Settled true parts := by
  induction h with
  | nil => exact settled_nil
  | cons filled next tail ih => exact (ih.cons_of_not_startsEmpty _ next).cons_filled filled
  | opening kind next tail ih =>
    refine (ih.cons_of_not_startsEmpty _ next).cons_of_not_startsEmpty _ ?_
    obtain rfl | rfl | ⟨-, rfl, -⟩ := kind <;> rfl
  | @softLines content rest filled plain letter tail ih =>
    have hsecond := ih.cons_of_not_startsEmpty (.line .orNil) letter.startsEmpty_eq_false
    have hempty := hsecond.cons_of_not_startsEmpty .empty rfl
    have hfirst : Settled true (.line .orNil :: .empty :: .line .orNil :: rest) :=
      settled_cons.mpr ⟨rfl, hempty⟩
    exact hfirst.cons_filled filled

/-! ## Without text -/

theorem IsBare.mergeStep_eq {content : Part} (h : IsBare content)
    (hstarts : startsEmpty parts = false) : mergeStep hasText content parts = content :: parts := by
  obtain rfl | ⟨doc, rfl⟩ := h
  · exact mergeStep_of_not_startsEmpty .empty hstarts
  · rfl

/-- A hard line in front of a stack **stays there**, where an empty line is kept. -/
theorem IsStack.mergeStep_hard (h : IsStack parts) :
    mergeStep false (.line .hard) parts = .line .hard :: parts := by
  match parts, h with
  | [], _ => rfl
  | [_], ⟨.inl rfl, _⟩ => rfl
  | _ :: _ :: _, ⟨.inl rfl, rfl, _⟩ => rfl
  | _ :: _, ⟨.inr ⟨_, rfl⟩, _⟩ => rfl

/-- **Stacks are settled**: two hard lines with nothing between them are an empty line. -/
theorem IsStack.settled {parts : List Part} (h : IsStack parts) : Settled false parts := by
  match parts, h with
  | [], _ => exact settled_nil
  | [content], ⟨hcontent, _⟩ => exact settled_cons.mpr ⟨hcontent.mergeStep_eq rfl, settled_nil⟩
  | content :: _ :: rest, ⟨hcontent, rfl, (hrest : IsStack rest)⟩ =>
    have hline := settled_cons.mpr ⟨hrest.mergeStep_hard, hrest.settled⟩
    exact settled_cons.mpr ⟨hcontent.mergeStep_eq rfl, hline⟩

/-! ## Of children -/

theorem settled_merge_ofChildren (localized : Bool) (children : List Child) :
    let hasText := children.any Child.isMeaningfulText
    Settled hasText (merge hasText (ofChildren localized children)) := by
  intro hasText
  cases htext : hasText with
  | true => exact (Compact.of_merge localized children).settled
  | false =>
    have hsettled := (isStack_ofChildren localized htext).settled
    rwa [hsettled.merge_eq]

/-- **Merging once is enough** for the parts of children, localized or not.  A second time changes
nothing, for at no position of what is merged is there anything left to merge. -/
theorem merge_merge (localized : Bool) (children : List Child) :
    let hasText := children.any Child.isMeaningfulText
    let merged := merge hasText (ofChildren localized children)
    merge hasText merged = merged ∧
      ∀ part rest, part :: rest <:+ merged → mergeStep hasText part rest = part :: rest :=
  have hsettled := settled_merge_ofChildren localized children
  ⟨hsettled.merge_eq, hsettled⟩

/-- Of **parts in general** it is not: the space takes in one soft line, and the next
is behind it then. -/
example : merge true [.space, .empty, .line .orNil, .empty, .line .orNil] =
    [.space, .empty, .line .orNil] ∧ merge true [.space, .empty, .line .orNil] = [.space] :=
  ⟨rfl, rfl⟩

end Reflow.Part
