import Mathlib.Data.List.Induction
import Reflow.Proofs.Markup.Alternating

/-!
# Proofs/Markup/Draining — separators are drained in place

Merging can be done in place: a loop over the positions of the list as it was, the last one first,
drains two parts at a time from a list that gets shorter meanwhile.  It never reaches beyond the
end, because whatever has been drained stood behind the position it has come to
(`Part.visit_append`), and so it merges as the fold does (`Part.mergeInPlace_eq`).  Trimming drains
pairs as well.  Of parts in general, whether or not they alternate, neither takes a content or the
only space (`Part.mergeInPlace_trimInPlace`).
-/

namespace Reflow.Part

/-! ## Draining -/

/-- **Draining** takes out the parts from one position up to another.  It is refused unless these
lie within the list. -/
def drain? (start stop : Nat) (parts : List Part) : Option (List Part) :=
  if start ≤ stop ∧ stop ≤ parts.length then some (parts.take start ++ parts.drop stop) else none

theorem drain?_append (front middle back : List Part) {start stop : Nat}
    (hstart : front.length = start) (hstop : start + middle.length = stop) :
    drain? start stop (front ++ (middle ++ back)) = some (front ++ back) := by
  subst hstart hstop
  have hwithin : front.length ≤ front.length + middle.length ∧
      front.length + middle.length ≤ (front ++ (middle ++ back)).length := by
    rw [List.length_append, List.length_append]
    omega
  rw [drain?, if_pos hwithin, List.take_left, ← List.drop_drop, List.drop_left, List.drop_left]

theorem length_of_drain? {start stop : Nat} {parts rest : List Part}
    (h : drain? start stop parts = some rest) : rest.length + (stop - start) = parts.length := by
  rw [drain?] at h
  split_ifs at h with hwithin
  rw [← Option.some.inj h, List.length_append, List.length_take, List.length_drop]
  omega

/-! ## Merging in place -/

/-- Which two of three parts are **drained**, if the second one is an empty content. -/
inductive Drained where
  /-- The first one and the empty content. -/
  | current
  /-- The empty content and the third one. -/
  | following
  deriving DecidableEq, Repr

/-- What is drained at a part, from it and **the two parts behind it**, as far as there are any. -/
def drained? (hasText : Bool) : (current next after : Option Part) → Option Drained
  | some .empty, some .empty, _ => some .current
  | some (.line .hard), some .empty, some (.line .hard) => if hasText then some .current else none
  | some (.line .orNil), some .empty, some .space
  | some (.line .hard), some .empty, some .space
  | some .space, some .empty, some .space
  | some (.line .orNil), some .empty, some (.line .hard) => some .current
  | some .space, some .empty, some (.line .orNil)
  | some .space, some .empty, some (.line .hard)
  | some (.line .hard), some .empty, some (.line .orNil) => some .following
  | _, _, _ => none

/-- A **visit** to one position. -/
def visit (hasText : Bool) (i : Nat) (parts : List Part) : Option (List Part) :=
  match drained? hasText parts[i]? parts[i + 1]? parts[i + 2]? with
  | some .current => drain? i (i + 2) parts
  | some .following => drain? (i + 1) (i + 3) parts
  | none => some parts

/-- Visits to so many positions at the start, **the last one first**. -/
def visitAll (hasText : Bool) : Nat → List Part → Option (List Part)
  | 0, parts => some parts
  | i + 1, parts => (visit hasText i parts).bind (visitAll hasText i)

/-- **Merging in place**: visits to all positions of the list as it was, but the last. -/
def mergeInPlace (hasText : Bool) (parts : List Part) : Option (List Part) :=
  visitAll hasText (parts.length - 1) parts

variable {hasText : Bool} {part : Part} {parts merged : List Part}

theorem exists_eq_cons {next : Part} (hnext : merged[0]? = some next) :
    ∃ rest, merged = next :: rest :=
  List.head?_eq_some_iff.mp (List.head?_eq_getElem?.trans hnext)

theorem exists_eq_cons_cons {next after : Part} (hnext : merged[0]? = some next)
    (hafter : merged[1]? = some after) : ∃ rest, merged = next :: after :: rest := by
  obtain ⟨later, rfl⟩ := exists_eq_cons hnext
  have hlater : later[0]? = some after := hafter
  obtain ⟨rest, rfl⟩ := exists_eq_cons hlater
  exact ⟨rest, rfl⟩

/-- Where nothing is drained, a step of merging **keeps everything**. -/
theorem mergeStep_of_drained?_eq_none
    (h : drained? hasText (some part) merged[0]? merged[1]? = none) :
    mergeStep hasText part merged = part :: merged := by
  rw [mergeStep.eq_def]
  split
  case h_2 =>
    cases hasText with
    | true => cases h
    | false => rfl
  case h_10 => rfl
  all_goals cases h

/-- A step of merging **drains the same parts**: two in front, the two behind the
first one, or none. -/
theorem mergeStep_cases (hasText : Bool) (part : Part) (merged : List Part) :
    let drained := drained? hasText (some part) merged[0]? merged[1]?
    (drained = none ∧ mergeStep hasText part merged = part :: merged) ∨
      (∃ next rest, merged = next :: rest ∧ drained = some .current ∧
        mergeStep hasText part merged = rest) ∨
      ∃ next after rest, merged = next :: after :: rest ∧ drained = some .following ∧
        mergeStep hasText part merged = part :: rest := by
  intro drained
  cases h : drained with
  | none => exact .inl ⟨rfl, mergeStep_of_drained?_eq_none h⟩
  | some which =>
    refine .inr ?_
    simp only [drained, drained?.eq_def] at h
    split at h
    case h_1 hpart hnext =>
      obtain rfl := Option.some.inj hpart
      obtain ⟨rest, rfl⟩ := exists_eq_cons hnext
      exact .inl ⟨_, rest, rfl, h.symm, rfl⟩
    case h_2 hpart hnext hafter =>
      obtain rfl := Option.some.inj hpart
      obtain ⟨rest, rfl⟩ := exists_eq_cons_cons hnext hafter
      split_ifs at h with htext
      exact .inl ⟨_, _, rfl, h.symm, if_pos htext⟩
    case h_3 hpart hnext hafter | h_4 hpart hnext hafter | h_5 hpart hnext hafter
        | h_6 hpart hnext hafter =>
      obtain rfl := Option.some.inj hpart
      obtain ⟨rest, rfl⟩ := exists_eq_cons_cons hnext hafter
      exact .inl ⟨_, _, rfl, h.symm, rfl⟩
    case h_7 hpart hnext hafter | h_8 hpart hnext hafter | h_9 hpart hnext hafter =>
      obtain rfl := Option.some.inj hpart
      obtain ⟨rest, rfl⟩ := exists_eq_cons_cons hnext hafter
      exact .inr ⟨_, _, rest, rfl, h.symm, rfl⟩
    case h_10 => cases h

/-- **One visit is one step of merging**, if all behind the position is merged already.  What it
drains lies within the list. -/
theorem visit_append (hasText : Bool) (front : List Part) (part : Part) (merged : List Part) :
    visit hasText front.length (front ++ part :: merged) =
      some (front ++ mergeStep hasText part merged) := by
  have hcurrent : (front ++ part :: merged)[front.length]? = some part := by
    rw [List.getElem?_append_right le_rfl, Nat.sub_self, List.getElem?_cons_zero]
  have hbehind (i : Nat) : (front ++ part :: merged)[front.length + (i + 1)]? = merged[i]? := by
    rw [List.getElem?_append_right (Nat.le_add_right ..), Nat.add_sub_cancel_left,
      List.getElem?_cons_succ]
  rw [visit, hcurrent, hbehind 0, hbehind 1]
  obtain ⟨hnone, hstep⟩ | ⟨next, rest, rfl, hsome, hstep⟩ |
    ⟨next, after, rest, rfl, hsome, hstep⟩ := mergeStep_cases hasText part merged
  · rw [hnone, hstep]
  · rw [hsome, hstep]
    exact drain?_append front [part, next] rest rfl rfl
  · rw [hsome, hstep]
    have hfront : (front ++ [part]).length = front.length + 1 := List.length_append
    have hdrain := drain?_append (front ++ [part]) [next, after] rest hfront rfl
    rwa [List.append_assoc, List.append_assoc] at hdrain

/-- From the last position to the first, visits **merge all that is in front** of what is merged. -/
theorem visitAll_append (hasText : Bool) (front merged : List Part) :
    visitAll hasText front.length (front ++ merged) =
      some (front.foldr (mergeStep hasText) merged) := by
  induction front using List.reverseRecOn generalizing merged with
  | nil => rfl
  | append_singleton front part ih =>
    rw [List.length_append, List.length_singleton, visitAll, List.append_assoc,
      List.singleton_append, visit_append, Option.bind_some, ih, List.foldr_append, List.foldr_cons,
      List.foldr_nil]

/-- **Merging in place merges**, and all that it drains lies within the list. -/
theorem mergeInPlace_eq (hasText : Bool) (parts : List Part) :
    mergeInPlace hasText parts = some (merge hasText parts) := by
  obtain rfl | ⟨front, last, rfl⟩ := List.eq_nil_or_concat parts
  · rfl
  · have hlast : mergeStep hasText last [] = [last] := mergeStep_of_not_startsEmpty last rfl
    rw [mergeInPlace, List.concat_eq_append, List.length_append, List.length_singleton,
      Nat.add_sub_cancel, visitAll_append, merge, List.foldr_append, List.foldr_cons,
      List.foldr_nil, hlast]

/-! ## Trimming in place -/

/-- **Draining pairs** from the start, as long as the first two parts are lines or empty. -/
def drainPairs (parts : List Part) : Option (List Part) :=
  if parts[0]?.any isLineOrEmpty && parts[1]?.any isLineOrEmpty then
    match _h : drain? 0 2 parts with
    | some rest => drainPairs rest
    | none => none
  else some parts
termination_by parts.length
decreasing_by
  have hlength := length_of_drain? _h
  omega

/-- **Trimming in place**: the last part is popped, and then the first two are drained. -/
def trimInPlace (parts : List Part) : Option (List Part) := drainPairs (trimEnd parts)

theorem drainPairs_eq (parts : List Part) : drainPairs parts = some (trimStart parts) := by
  match parts with
  | [] | [_] =>
    rw [drainPairs, if_neg (by simp)]
    rfl
  | first :: second :: rest =>
    rw [drainPairs, trimStart]
    have hdrain : drain? 0 2 (first :: second :: rest) = some rest :=
      drain?_append [] [first, second] rest rfl rfl
    simp only [List.getElem?_cons_zero, List.getElem?_cons_succ, Option.any_some]
    split_ifs
    · rw [hdrain]
      exact drainPairs_eq rest
    · rfl

/-- **Trimming in place trims**, and all that it drains lies within the list. -/
theorem trimInPlace_eq (parts : List Part) : trimInPlace parts = some (trim parts) :=
  drainPairs_eq (trimEnd parts)

/-! ## What is never drained -/

/-- A content that is there, or **the line between two words**. -/
def isLasting : Part → Bool
  | word _ | printed _ | line .orSpace => true
  | empty | space | line .orNil | line .hard => false

theorem filter_isFilled_isLasting (parts : List Part) :
    (parts.filter isLasting).filter isFilled = parts.filter isFilled := by
  rw [List.filter_filter]
  refine List.filter_congr fun part _ => ?_
  rcases part with _ | _ | _ | (_ | _ | _) | _ <;> rfl

theorem filter_mergeStep (hasText : Bool) (part : Part) (merged : List Part) :
    (mergeStep hasText part merged).filter isLasting = (part :: merged).filter isLasting := by
  rw [mergeStep.eq_def]
  split
  · rfl
  · split <;> rfl
  all_goals rfl

/-- Merging takes away **no content and no line between two words**. -/
theorem filter_merge (hasText : Bool) (parts : List Part) :
    (merge hasText parts).filter isLasting = parts.filter isLasting := by
  induction parts with
  | nil => rfl
  | cons part parts ih => rw [merge_cons, filter_mergeStep, List.filter_cons, List.filter_cons, ih]

theorem space_mem_mergeStep (hasText : Bool) (part : Part) (merged : List Part) :
    .space ∈ mergeStep hasText part merged ↔ .space ∈ part :: merged := by
  rw [mergeStep.eq_def]
  split
  · simp
  · split <;> simp
  all_goals simp

/-- Of spaces it joins, merging **leaves one**. -/
theorem space_mem_merge (hasText : Bool) (parts : List Part) :
    .space ∈ merge hasText parts ↔ .space ∈ parts := by
  induction parts with
  | nil => rfl
  | cons part parts ih => rw [merge_cons, space_mem_mergeStep, List.mem_cons, List.mem_cons, ih]

/-- Merging takes parts away **in pairs**. -/
theorem exists_length_merge (hasText : Bool) (parts : List Part) :
    ∃ pairs, parts.length = (merge hasText parts).length + 2 * pairs := by
  induction parts with
  | nil => exact ⟨0, rfl⟩
  | cons part parts ih =>
    obtain ⟨pairs, hpairs⟩ := ih
    rw [merge_cons, List.length_cons, hpairs]
    obtain ⟨-, hstep⟩ | ⟨next, rest, hmerged, -, hstep⟩ | ⟨next, after, rest, hmerged, -, hstep⟩ :=
      mergeStep_cases hasText part (merge hasText parts)
    · exact ⟨pairs, by rw [hstep, List.length_cons]; omega⟩
    · exact ⟨pairs + 1, by rw [hstep, hmerged, List.length_cons]; omega⟩
    · exact ⟨pairs + 1, by rw [hstep, hmerged]; simp only [List.length_cons]; omega⟩

theorem filter_dropWhile_isLineOrEmpty (parts : List Part) :
    (parts.dropWhile isLineOrEmpty).filter (! isLineOrEmpty ·) =
      parts.filter (! isLineOrEmpty ·) := by
  induction parts with
  | nil => rfl
  | cons part parts ih =>
    cases hpart : part.isLineOrEmpty with
    | true => rw [List.dropWhile_cons_of_pos hpart, ih, List.filter_cons_of_neg (by simp [hpart])]
    | false => rw [List.dropWhile_cons_of_neg (by simp [hpart])]

theorem filter_trimStart (parts : List Part) :
    (trimStart parts).filter (! isLineOrEmpty ·) = parts.filter (! isLineOrEmpty ·) := by
  match parts with
  | [] | [_] => rfl
  | first :: second :: rest =>
    rw [trimStart]
    split_ifs with hpair
    · obtain ⟨hfirst, hsecond⟩ := Bool.and_eq_true_iff.mp hpair
      rw [filter_trimStart rest, List.filter_cons_of_neg (by simp [hfirst]),
        List.filter_cons_of_neg (by simp [hsecond])]
    · rfl

/-- Trimming takes away **lines and empty contents only**. -/
theorem filter_trim (parts : List Part) :
    (trim parts).filter (! isLineOrEmpty ·) = parts.filter (! isLineOrEmpty ·) := by
  rw [trim, filter_trimStart, trimEnd, List.filter_reverse, filter_dropWhile_isLineOrEmpty,
    List.filter_reverse, List.reverse_reverse]

theorem filter_isFilled_trim (parts : List Part) :
    (trim parts).filter isFilled = parts.filter isFilled := by
  have hfilled (parts : List Part) :
      (parts.filter (! isLineOrEmpty ·)).filter isFilled = parts.filter isFilled := by
    rw [List.filter_filter]
    refine List.filter_congr fun part _ => ?_
    cases part <;> rfl
  rw [← hfilled, filter_trim, hfilled]

theorem space_mem_trim (parts : List Part) : .space ∈ trim parts ↔ .space ∈ parts := by
  have hspace (parts : List Part) : .space ∈ parts.filter (! isLineOrEmpty ·) ↔ .space ∈ parts := by
    rw [List.mem_filter]
    exact and_iff_left rfl
  rw [← hspace, filter_trim, hspace]

/-- **Separators can be drained in place from any parts**, whether or not these alternate.  Merging
and then trimming drain ranges that lie within the list, so neither is refused.  Neither takes a
content away, or the only space.  Merging keeps every line between two words as well; it shortens
the list by pairs, and contents and separators in turn stay in turn, whichever of them is first. -/
theorem mergeInPlace_trimInPlace (hasText : Bool) (parts : List Part) :
    let merged := merge hasText parts
    (mergeInPlace hasText parts = some merged ∧ trimInPlace merged = some (trim merged) ∧
      trimInPlace parts = some (trim parts)) ∧
    (merged.filter isFilled = parts.filter isFilled ∧
      (trim merged).filter isFilled = parts.filter isFilled ∧
      (trim parts).filter isFilled = parts.filter isFilled) ∧
    (.space ∈ parts → .space ∈ merged ∧ .space ∈ trim merged ∧ .space ∈ trim parts) ∧
    merged.filter isLasting = parts.filter isLasting ∧
    (∃ pairs, parts.length = merged.length + 2 * pairs) ∧
    (Alternating IsContent (IsSeparator false) parts →
      Alternating IsContent (IsSeparator false) merged) ∧
    (Alternating (IsSeparator false) IsContent parts →
      Alternating (IsSeparator false) IsContent merged) := by
  intro merged
  have hlasting : merged.filter isLasting = parts.filter isLasting := filter_merge hasText parts
  have hfilled : merged.filter isFilled = parts.filter isFilled := by
    rw [← filter_isFilled_isLasting, hlasting, filter_isFilled_isLasting]
  refine ⟨⟨mergeInPlace_eq hasText parts, trimInPlace_eq merged, trimInPlace_eq parts⟩,
    ⟨hfilled, (filter_isFilled_trim merged).trans hfilled, filter_isFilled_trim parts⟩,
    fun hspace => ?_, hlasting, exists_length_merge hasText parts, alternating_merge hasText,
    alternating_merge hasText⟩
  have hmerged : .space ∈ merged := (space_mem_merge hasText parts).mpr hspace
  exact ⟨hmerged, (space_mem_trim merged).mpr hmerged, (space_mem_trim parts).mpr hspace⟩

end Reflow.Part
