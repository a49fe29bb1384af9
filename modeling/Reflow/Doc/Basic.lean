/-!
# Doc/Basic — documents that know no width

A document says where lines *may* break and where they *must*; `Doc/Resolve` decides what does not
depend on the width, `Layout` the rest.  `Doc.willBreak` is the static half of that decision: it
holds of the documents whose enclosing group cannot stay on one line.
-/

namespace Reflow

/-- What a line break becomes when its group stays flat. -/
inductive LineKind where
  /-- A space. -/
  | orSpace
  /-- Nothing. -/
  | orNil
  /-- A line break all the same. -/
  | hard
  deriving DecidableEq, Repr

/-- A **document**. -/
inductive Doc where
  | text (s : String)
  | concat (docs : List Doc)
  | line (kind : LineKind)
  /-- The lines broken inside are indented one level more. -/
  | indent (contents : Doc)
  /-- The lines directly inside are all flat or all broken; broken for sure if `shouldBreak`. -/
  | group (shouldBreak : Bool) (contents : Doc)
  /-- Contents at even positions and separators at odd ones, wrapped like words. -/
  | fill (parts : List Doc)
  /-- One of two documents, by the state of the nearest group. -/
  | ifBreak (broken flat : Doc)
  /-- The first variant that fits on the line when flat, and otherwise the last one, broken. -/
  | conditional (variants : List Doc)
  /-- Held back until the end of the line. -/
  | lineSuffix (contents : Doc)
  /-- Ends the line if something is held back. -/
  | suffixBoundary
  deriving Repr, Inhabited

namespace Doc

/-! ## Builders -/

/-- The document of nothing. -/
def nil : Doc := concat []

/-- **Appending** extends a list at its end; anything else becomes a list of two. -/
def append : Doc → Doc → Doc
  | concat docs, other => concat (docs ++ [other])
  | doc, other => concat [doc, other]

instance : Append Doc := ⟨append⟩

/-- A fill that ends with a content: an empty one is added if the last part is a separator. -/
def filled (parts : List Doc) : Doc :=
  if parts.length % 2 = 0 && !parts.isEmpty then fill (parts ++ [text ""]) else fill parts

/-- A group that breaks only if it must. -/
def grouped (contents : Doc) : Doc := group false contents

/-- One of two documents, the flat one first. -/
def flatOrBroken (flat broken : Doc) : Doc := ifBreak broken flat

/-! ## What can be known without a width -/

/-- Whether the document is a line break of any kind. -/
def isLine : Doc → Bool
  | line _ => true
  | _ => false

mutual

/-- Whether the document prints nothing at all. -/
def isEmpty : Doc → Bool
  | text s => s.isEmpty
  | concat docs => allEmpty docs
  | line _ | indent _ | group .. | fill _ | ifBreak .. | conditional _ | lineSuffix _
  | suffixBoundary => false

def allEmpty : List Doc → Bool
  | [] => true
  | doc :: docs => doc.isEmpty && allEmpty docs

end

mutual

/-- Whether the group around the document is **bound to break**.  What is held back to the end of a
line needs that end; of a choice between variants the first one speaks for all. -/
def willBreak : Doc → Bool
  | text _ | suffixBoundary => false
  | line kind => kind == .hard
  | lineSuffix _ => true
  | concat docs | fill docs => anyWillBreak docs
  | indent doc => doc.willBreak
  | group shouldBreak doc => shouldBreak || doc.willBreak
  | ifBreak broken flat => broken.willBreak || flat.willBreak
  | conditional variants => firstWillBreak variants

def anyWillBreak : List Doc → Bool
  | [] => false
  | doc :: docs => doc.willBreak || anyWillBreak docs

def firstWillBreak : List Doc → Bool
  | [] => false
  | doc :: _ => doc.willBreak

end

mutual

/-- How deeply text is held back **inside** text that is held back: 0 without any, 1 where nothing
held back holds back more. -/
def suffixDepth : Doc → Nat
  | text _ | line _ | suffixBoundary => 0
  | lineSuffix doc => doc.suffixDepth + 1
  | indent doc | group _ doc => doc.suffixDepth
  | ifBreak broken flat => max broken.suffixDepth flat.suffixDepth
  | concat docs | fill docs | conditional docs => maxSuffixDepth docs

def maxSuffixDepth : List Doc → Nat
  | [] => 0
  | doc :: docs => max doc.suffixDepth (maxSuffixDepth docs)

end

/-! ## What will break -/

theorem anyWillBreak_eq_any (docs : List Doc) : anyWillBreak docs = docs.any willBreak := by
  induction docs with
  | nil => rfl
  | cons doc docs ih => rw [anyWillBreak, ih, List.any_cons]

@[simp] theorem willBreak_concat (docs : List Doc) :
    (concat docs).willBreak = docs.any willBreak := by
  rw [willBreak, anyWillBreak_eq_any]

@[simp] theorem willBreak_append (a b : Doc) :
    (a ++ b).willBreak = (a.willBreak || b.willBreak) := by
  change (append a b).willBreak = _
  cases a <;> simp [append, List.any_append]

end Doc

end Reflow
