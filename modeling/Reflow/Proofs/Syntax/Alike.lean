import Mathlib.Data.List.Forall2
import Reflow.Proofs.Text.Alike
import Reflow.Syntax.Tree

/-!
# Proofs/Syntax/Alike — trees that differ in the texts between their tags

Two trees are alike if they are the same but for the texts among the children of elements and
fragments, and these are alike (`Text.Alike`).  There is one clause for each way of building a tree.
What printing looks at beside the children is then the same: comments, source texts, and which
strings span lines.
-/

namespace Reflow

mutual

/-- Expressions that are **alike**.  One that is not markup is opaque, so it is
alike to itself alone. -/
inductive Expression.Alike : Expression → Expression → Prop
  | foreign (e : ForeignExpression) : Expression.Alike (.foreign e) (.foreign e)
  | markup {node node' : Node} (h : Node.Alike node node') (raw : String)
      (comments : List Comment) :
      Expression.Alike (.markup node raw comments) (.markup node' raw comments)

/-- Braces around expressions that are alike, or around the same comments. -/
inductive Container.Alike : Container → Container → Prop
  | empty (comments : List Comment) : Container.Alike (.empty comments) (.empty comments)
  | filled {e e' : Expression} (h : Expression.Alike e e') :
      Container.Alike (.filled e) (.filled e')

/-- Values that are alike.  A string is the same on both sides: it is not a text between tags. -/
inductive AttributeValue.Alike : AttributeValue → AttributeValue → Prop
  | string (raw : String) : AttributeValue.Alike (.string raw) (.string raw)
  | container {braces braces' : Container} (h : Container.Alike braces braces') :
      AttributeValue.Alike (.container braces) (.container braces')
  | markup {value value' : Markup} (h : Markup.Alike value value') :
      AttributeValue.Alike (.markup value) (.markup value')

/-- Attributes of the same name and comments, with values that are alike. -/
inductive Attribute.Alike : Attribute → Attribute → Prop
  | bare (name : Verbatim) (comments : List Comment) :
      Attribute.Alike (.bare name comments) (.bare name comments)
  | valued (name : Verbatim) {value value' : AttributeValue}
      (h : AttributeValue.Alike value value') (comments : List Comment) :
      Attribute.Alike (.valued name value comments) (.valued name value' comments)
  | spread {e e' : Expression} (h : Expression.Alike e e') (comments : List Comment) :
      Attribute.Alike (.spread e comments) (.spread e' comments)

/-- Attributes that are alike, one by one. -/
inductive Attribute.AllAlike : List Attribute → List Attribute → Prop
  | nil : Attribute.AllAlike [] []
  | cons {first first' : Attribute} {others others' : List Attribute}
      (h : Attribute.Alike first first') (tail : Attribute.AllAlike others others') :
      Attribute.AllAlike (first :: others) (first' :: others')

/-- Opening tags that differ in their attributes alone, and these are alike. -/
inductive OpeningTag.Alike : OpeningTag → OpeningTag → Prop
  | mk (name : Verbatim) (typeArguments : Option Verbatim) {attributes attributes' : List Attribute}
      (h : Attribute.AllAlike attributes attributes') (selfClosing : Bool) :
      OpeningTag.Alike ⟨name, typeArguments, attributes, selfClosing⟩
        ⟨name, typeArguments, attributes', selfClosing⟩

/-- Elements and fragments with **children that are alike**, between the same comments. -/
inductive Markup.Alike : Markup → Markup → Prop
  | element {tag tag' : OpeningTag} (htag : OpeningTag.Alike tag tag')
      (closing : Option Verbatim) {children children' : List Node}
      (h : Node.AllAlike children children') (comments : List Comment) :
      Markup.Alike (.element tag closing children comments)
        (.element tag' closing children' comments)
  | fragment (opening closing : List Comment) {children children' : List Node}
      (h : Node.AllAlike children children') (comments : List Comment) :
      Markup.Alike (.fragment opening closing children comments)
        (.fragment opening closing children' comments)

/-- Nodes that are **alike**.  A text by itself is printed as it is written, so it is
alike to no other. -/
inductive Node.Alike : Node → Node → Prop
  | text (raw : String) : Node.Alike (.text raw) (.text raw)
  | markup {value value' : Markup} (h : Markup.Alike value value') :
      Node.Alike (.markup value) (.markup value')
  | container {braces braces' : Container} (h : Container.Alike braces braces') :
      Node.Alike (.container braces) (.container braces')
  | spreadChild {e e' : Expression} (h : Expression.Alike e e') :
      Node.Alike (.spreadChild e) (.spreadChild e')
  | attr {item item' : Attribute} (h : Attribute.Alike item item') :
      Node.Alike (.attr item) (.attr item')
  | openingTag {tag tag' : OpeningTag} (h : OpeningTag.Alike tag tag') :
      Node.Alike (.openingTag tag) (.openingTag tag')
  | closingTag (name : Verbatim) : Node.Alike (.closingTag name) (.closingTag name)
  | openingFragment (comments : List Comment) :
      Node.Alike (.openingFragment comments) (.openingFragment comments)
  | closingFragment (comments : List Comment) :
      Node.Alike (.closingFragment comments) (.closingFragment comments)
  | emptyExpression (comments : List Comment) :
      Node.Alike (.emptyExpression comments) (.emptyExpression comments)

/-- Children that are alike: among them **a text is alike to any that is read as it is**. -/
inductive Node.AllAlike : List Node → List Node → Prop
  | nil : Node.AllAlike [] []
  | text {raw raw' : String} {others others' : List Node} (h : Text.Alike raw raw')
      (tail : Node.AllAlike others others') :
      Node.AllAlike (.text raw :: others) (.text raw' :: others')
  | cons {first first' : Node} {others others' : List Node} (h : Node.Alike first first')
      (tail : Node.AllAlike others others') :
      Node.AllAlike (first :: others) (first' :: others')

end

/-! ## What is the same of them -/

/-- What is the same of related things is true **of some of them on both sides**, or of none. -/
theorem any_eq_of_forall₂ {α α' : Type} {R : α → α' → Prop} {p : α → Bool} {p' : α' → Bool}
    {items : List α} {items' : List α'} (h : List.Forall₂ R items items')
    (hp : ∀ item item', R item item' → p item = p' item') : items.any p = items'.any p' := by
  induction h with
  | nil => rfl
  | cons hitem _ ih => rw [List.any_cons, List.any_cons, hp _ _ hitem, ih]

namespace Expression.Alike

variable {e e' : Expression}

theorem comments_eq (h : e.Alike e') : e.comments = e'.comments := by cases h <;> rfl

end Expression.Alike

namespace Container.Alike

variable {braces braces' : Container}

theorem isSpelledSpace_eq (h : braces.Alike braces') :
    braces.isSpelledSpace = braces'.isSpelledSpace := by
  rcases h with _ | ⟨_ | _⟩ <;> rfl

theorem isTemplate_eq (h : braces.Alike braces') : braces.isTemplate = braces'.isTemplate := by
  rcases h with _ | ⟨_ | _⟩ <;> rfl

end Container.Alike

namespace Attribute.Alike

variable {item item' : Attribute}

theorem comments_eq (h : item.Alike item') : item.comments = item'.comments := by
  cases h <;> rfl

theorem isMultilineString_eq (h : item.Alike item') :
    item.isMultilineString = item'.isMultilineString := by
  rcases h with _ | ⟨_, _ | _ | _⟩ | _ <;> rfl

theorem isPlainString_eq (h : item.Alike item') : item.isPlainString = item'.isPlainString := by
  rcases h with _ | ⟨_, _ | _ | _⟩ | _ <;> rfl

end Attribute.Alike

namespace Attribute.AllAlike

variable {items items' : List Attribute}

theorem forall₂ (h : AllAlike items items') : List.Forall₂ Attribute.Alike items items' := by
  induction items generalizing items' with
  | nil =>
    cases h
    exact .nil
  | cons first others ih =>
    cases h with
    | cons hfirst tail => exact .cons hfirst (ih tail)

theorem length_eq (h : AllAlike items items') : items.length = items'.length :=
  h.forall₂.length_eq

theorem isEmpty_eq (h : AllAlike items items') : items.isEmpty = items'.isEmpty := by
  cases h <;> rfl

theorem any_isMultilineString_eq (h : AllAlike items items') :
    items.any Attribute.isMultilineString = items'.any Attribute.isMultilineString :=
  any_eq_of_forall₂ h.forall₂ fun _ _ hitem => hitem.isMultilineString_eq

theorem map_comments_eq (h : AllAlike items items') :
    items.map Attribute.comments = items'.map Attribute.comments := by
  have hitems := h.forall₂
  clear h
  induction hitems with
  | nil => rfl
  | cons hitem _ ih => rw [List.map_cons, List.map_cons, hitem.comments_eq, ih]

end Attribute.AllAlike

end Reflow
