import Reflow.Host.Basic
import Reflow.Markup.Document
import Reflow.Proofs.Markup.Merging
import Mathlib.Data.List.Forall2

/-!
# Proofs/Markup/Children — what nodes are as children

Between two tags a node is text to its neighbours, or it is known by its kind and comes with its
document (`Node.IsChild`).  Which of the two, and the kind, can be seen before anything is printed
(`Node.asChild`).  So a body that is laid out in a way of its own is known by its nodes
(`Node.not_special_of_areSetOut`), and so is whether it holds anything and where its spaces stand.
-/

namespace Reflow

variable {σ ε : Type}

namespace Child

/-- A child that **counts as content**: text that does, and anything else. -/
def counts : Child → Bool
  | text raw => Text.isMeaningful raw
  | printed .. => true

end Child

namespace Node

/-- What a node **is as a child**: the text it stands for, or a document with its kind. -/
def IsChild (node : Node) (child : Child) : Prop :=
  match node.asText? with
  | some raw => child = .text raw
  | none => ∃ doc, child = .printed node.childKind doc

/-- Printing children gives **one child for each node**, in order. -/
theorem forall₂_isChild (host : Host σ ε) (o : LanguageOptions) (ancestors : Ancestors)
    (nodes : List Node) (s : σ) :
    List.Forall₂ IsChild nodes ((Node.children o ancestors nodes).run host s).value := by
  induction nodes generalizing s with
  | nil => exact .nil
  | cons first others ih =>
    rw [Node.children]
    cases htext : first.asText? with
    | some raw =>
      simp only [Dialogue.run_bind, Dialogue.pure_eq, Dialogue.run_done]
      exact .cons (by rw [IsChild, htext]) (ih _)
    | none =>
      simp only [map_eq_pure_bind, Dialogue.run_bind, Dialogue.pure_eq, Dialogue.run_done]
      refine .cons ?_ (ih _)
      rw [IsChild, htext]
      exact ⟨_, rfl⟩

/-- Children that are **set out between the tags**: not nothing, and not a template alone. -/
def areSetOut : List Node → Bool
  | [] => false
  | [text raw] => Text.isMeaningful raw
  | [container braces] => !braces.isTemplate
  | _ => true

/-- Of such nodes come children that an element is **laid out around**. -/
theorem not_special_of_areSetOut {nodes : List Node} {inside : List Child}
    (h : List.Forall₂ IsChild nodes inside) (hout : areSetOut nodes = true) :
    Child.noContent inside = false ∧
      ∀ template, inside ≠ [.printed (.container true) template] := by
  match nodes, inside, h with
  | [node], [child], .cons hchild .nil =>
    rw [IsChild] at hchild
    cases node with
    | text raw =>
      obtain rfl : child = .text raw := hchild
      have hmeaning : Text.isMeaningful raw = true := hout
      exact ⟨by rw [Child.noContent, hmeaning]; rfl, nofun⟩
    | container braces =>
      have hplain : braces.isTemplate = false := Bool.not_eq_true' _ ▸ hout
      rw [asText?] at hchild
      split_ifs at hchild
      · obtain rfl : child = .text " " := hchild
        exact ⟨rfl, nofun⟩
      · obtain ⟨doc, rfl⟩ := hchild
        refine ⟨rfl, fun template heq => ?_⟩
        rw [childKind, hplain] at heq
        cases heq
    | markup | spreadChild | attr | openingTag | closingTag | openingFragment | closingFragment
    | emptyExpression =>
      obtain ⟨doc, rfl⟩ := hchild
      exact ⟨rfl, nofun⟩
  | _ :: _ :: _, first :: second :: _, .cons _ (.cons _ _) =>
    exact ⟨by cases first <;> rfl, nofun⟩

/-- Any other nodes have **no content**, or are a template alone. -/
theorem special_of_not_areSetOut {nodes : List Node} {inside : List Child}
    (h : List.Forall₂ IsChild nodes inside) (hout : areSetOut nodes = false) :
    Child.noContent inside = true ∨ ∃ template, inside = [.printed (.container true) template] := by
  match nodes, inside, h with
  | [], [], .nil => exact .inl rfl
  | [node], [child], .cons hchild .nil =>
    rw [IsChild] at hchild
    cases node with
    | text raw =>
      obtain rfl : child = .text raw := hchild
      have hblank : Text.isMeaningful raw = false := hout
      exact .inl (by rw [Child.noContent, hblank]; rfl)
    | container braces =>
      have htemplate : braces.isTemplate = true := by simpa [areSetOut] using hout
      have hplain : braces.isSpelledSpace = false := by
        rw [Container.isSpelledSpace.eq_def]
        split
        · cases htemplate
        · rfl
      rw [asText?, hplain, if_neg Bool.false_ne_true, childKind, htemplate] at hchild
      obtain ⟨doc, rfl⟩ := hchild
      exact .inr ⟨doc, rfl⟩
    | markup | spreadChild | attr | openingTag | closingTag | openingFragment | closingFragment
    | emptyExpression => cases hout
  | first :: _ :: _, _ :: _ :: _, .cons _ (.cons _ _) => cases first <;> cases hout

/-- What a node is as a child **before it is printed**. -/
def asChild (node : Node) : Child :=
  match node.asText? with
  | some raw => .text raw
  | none => .printed node.childKind .nil

variable {node : Node} {child : Child} {nodes : List Node} {children : List Child}

theorem IsChild.cases (h : node.IsChild child) :
    child = node.asChild ∨
      ∃ doc, child = .printed node.childKind doc ∧ node.asChild = .printed node.childKind .nil := by
  rw [IsChild] at h
  rw [asChild]
  cases htext : node.asText? with
  | some raw =>
    rw [htext] at h
    exact .inl h
  | none =>
    rw [htext] at h
    obtain ⟨doc, rfl⟩ := h
    exact .inr ⟨doc, rfl, rfl⟩

/-- Printing does not change **which children count**. -/
theorem any_counts (h : List.Forall₂ IsChild nodes children) :
    children.any Child.counts = (nodes.map asChild).any Child.counts := by
  induction h with
  | nil => rfl
  | cons hchild _ ih =>
    rw [List.map_cons, List.any_cons, List.any_cons, ih]
    obtain rfl | ⟨doc, rfl, hnode⟩ := hchild.cases
    · rfl
    · rw [hnode]
      rfl

/-- Nor where **a space is read**. -/
theorem map_read (h : List.Forall₂ IsChild nodes children) :
    (Child.read children).map (fun _ => ()) = (Child.read (nodes.map asChild)).map fun _ => () := by
  rw [Child.read, Child.read, Reading.map_ofMarks, Reading.map_ofMarks]
  congr 1
  induction h with
  | nil => rfl
  | cons hchild _ ih =>
    rw [List.map_cons, List.flatMap_cons, List.flatMap_cons, List.map_append, List.map_append, ih]
    obtain rfl | ⟨doc, rfl, hnode⟩ := hchild.cases
    · rfl
    · rw [hnode]
      rfl

theorem spaceAtStart_read (h : List.Forall₂ IsChild nodes children) :
    (Child.read children).spaceAtStart = (Child.read (nodes.map asChild)).spaceAtStart := by
  have hmap (r : Reading Content) : (r.map fun _ => ()).spaceAtStart = r.spaceAtStart := by
    obtain ⟨_ | ⟨first, items⟩, spaceAtEnd⟩ := r <;> rfl
  rw [← hmap, map_read h, hmap]

theorem spaceAtEnd_read (h : List.Forall₂ IsChild nodes children) :
    (Child.read children).spaceAtEnd = (Child.read (nodes.map asChild)).spaceAtEnd :=
  show ((Child.read children).map fun _ => ()).spaceAtEnd =
    _ from congrArg Reading.spaceAtEnd (map_read h)

end Node

namespace Shell

/-- In an embedded block a body that is set out is printed as **its content alone**,
whatever the tags. -/
theorem doc_embedded {shell : Shell} {children : List Child} (o : LanguageOptions)
    (hcontent : Child.noContent children = false)
    (hplain : ∀ template, children ≠ [.printed (.container true) template]) :
    shell.doc o true children = shell.around o true children := by
  rw [doc.eq_def, hcontent, Bool.and_false, if_neg Bool.false_ne_true]
  split
  · exact absurd rfl (hplain _)
  · rfl

/-- Two children or more are laid out **around something**. -/
theorem doc_of_several (o : LanguageOptions) (isEmbedded : Bool) (shell : Shell)
    {children : List Child} (h : 2 ≤ children.length) :
    shell.doc o isEmbedded children = shell.around o isEmbedded children := by
  match children, h with
  | first :: second :: others, _ =>
    have hcontent : Child.noContent (first :: second :: others) = false := by cases first <;> rfl
    rw [doc, hcontent, Bool.and_false, if_neg Bool.false_ne_true]
    exact nofun

end Shell

end Reflow
