import Reflow.Proofs.Doc.Outcome

/-!
# Proofs/Doc/Visible — what is seen is printed once and in order

Where a document has a choice, one of its branches is printed, and which one goes by the width.  If
all of them show the same characters it makes no difference, and whatever the width, a document that
holds nothing back shows the characters of its texts in their order (`Doc.exists_visible_typeset`):
no part of a fill is left out or printed twice, and none of an attempt that is given up is left
over.
-/

namespace Reflow

open Piece (IsBreak)

/-- The **visible** characters of a text: those that are not white. -/
def Text.visible (white : Char → Bool) (cs : List Char) : List Char := cs.filter fun c => !white c

namespace Text

variable {white : Char → Bool}

@[simp] theorem visible_nil : visible white [] = [] := rfl

@[simp] theorem visible_append (xs ys : List Char) :
    visible white (xs ++ ys) = visible white xs ++ visible white ys :=
  List.filter_append xs ys

theorem visible_of_isBlankRun (hwhite : ∀ c, isBlank c = true → white c = true) {run : List Char}
    (h : IsBlankRun run) : visible white run = [] :=
  List.filter_eq_nil_iff.mpr fun c hc => by simp [hwhite c (h c hc)]

end Text

namespace Doc

mutual

/-- The characters of **the texts of a document**.  Of a choice they are those of one branch, the
flat one or the first variant; lines have none, and nothing that is held back is among them. -/
def contents : Doc → List Char
  | text s => s.toList
  | concat docs | fill docs => allContents docs
  | indent doc | group _ doc => doc.contents
  | ifBreak _ flat => flat.contents
  | conditional variants => firstContents variants
  | line _ | lineSuffix _ | suffixBoundary => []

def allContents : List Doc → List Char
  | [] => []
  | doc :: docs => doc.contents ++ allContents docs

def firstContents : List Doc → List Char
  | [] => []
  | doc :: _ => doc.contents

end

mutual

/-- Whether **the branches of every choice**, at every depth, show the same characters
in the same order. -/
def choicesAgree (white : Char → Bool) : Doc → Bool
  | text _ | line _ | suffixBoundary => true
  | concat docs | fill docs => allChoicesAgree white docs
  | indent doc | group _ doc | lineSuffix doc => doc.choicesAgree white
  | ifBreak broken flat => broken.choicesAgree white && flat.choicesAgree white &&
      Text.visible white broken.contents == Text.visible white flat.contents
  | conditional variants => allChoicesAgree white variants && variants.all fun variant =>
      Text.visible white variant.contents == Text.visible white (firstContents variants)

def allChoicesAgree (white : Char → Bool) : List Doc → Bool
  | [] => true
  | doc :: docs => doc.choicesAgree white && allChoicesAgree white docs

end

variable {white : Char → Bool}

theorem allChoicesAgree_eq_all (docs : List Doc) :
    allChoicesAgree white docs = docs.all (choicesAgree white) := by
  induction docs with
  | nil => rfl
  | cons doc docs ih => rw [allChoicesAgree, ih, List.all_cons]

/-- Whatever a document may print **shows its contents**, if its choices agree. -/
theorem Prints.visible_eq (hwhite : ∀ c, Text.isBlank c = true → white c = true) {mode : Mode}
    {doc : Doc} {cs : List Char} (h : doc.Prints mode cs) (hagree : doc.choicesAgree white = true) :
    Text.visible white cs = Text.visible white doc.contents := by
  have hbreak {run : List Char} (hrun : IsBreak run) : Text.visible white run = [] :=
    Text.visible_of_isBlankRun hwhite hrun.2
  -- by induction on what is printed: of a choice it is one branch, which shows what the one shows
  -- that counts
  induction h with
  | text | nil | fillNil | orNil | noVariant | suffixBoundary => rfl
  | hard _ hrun | «break» _ hrun => exact hbreak hrun
  | orSpace => exact Text.visible_of_isBlankRun hwhite (List.forall_mem_singleton.mpr rfl)
  | cons _ _ ih ihs | fillCons _ _ _ ih ihs =>
    obtain ⟨hdoc, hdocs⟩ := Bool.and_eq_true_iff.mp hagree
    have hrest := ihs hdocs
    rw [Text.visible_append, ih hdoc, hrest, ← Text.visible_append]
    rfl
  | indent _ ih | group _ _ ih => exact ih hagree
  | flat _ ih =>
    obtain ⟨hbranches, -⟩ := Bool.and_eq_true_iff.mp hagree
    exact ih (Bool.and_eq_true_iff.mp hbranches).2
  | broken _ ih =>
    obtain ⟨hbranches, hsame⟩ := Bool.and_eq_true_iff.mp hagree
    exact (ih (Bool.and_eq_true_iff.mp hbranches).1).trans (beq_iff_eq.mp hsame)
  | variant _ hdoc _ ih =>
    obtain ⟨hvariants, hsame⟩ := Bool.and_eq_true_iff.mp hagree
    rw [allChoicesAgree_eq_all] at hvariants
    exact (ih (List.all_eq_true.mp hvariants _ hdoc)).trans
      (beq_iff_eq.mp (List.all_eq_true.mp hsame _ hdoc))

/-- **What is seen is printed once and in order.**  At every width, a document that holds nothing
back and whose choices agree is typeset as a text that shows the characters of the document's texts.
All characters that lines are printed with have to be white; others may be. -/
theorem exists_visible_typeset (hwhite : ∀ c, Text.isBlank c = true → white c = true)
    (o : LayoutOptions) (hindent : 0 < o.indentWidth) {doc : Doc} (hheld : doc.suffixDepth = 0)
    (hagree : doc.choicesAgree white = true) :
    ∃ output, doc.typeset o = .ok output ∧
      Text.visible white output.toList = Text.visible white doc.contents := by
  obtain ⟨output, htypeset, hprints⟩ := exists_typeset_eq o doc hheld hindent
  exact ⟨output, htypeset, hprints.visible_eq hwhite hagree⟩

/-- A fill of two parts, nothing to choose from, and arguments that are set in two ways. -/
def callInFill : Doc :=
  fill
    [concat
      [text "f(",
        conditional
          [text "a, b)",
            concat
              [indent (concat [line .orNil, text "a,", line .orSpace, text "b"]), line .orNil,
                text ")"]],
        conditional []],
      ifBreak (concat [line .hard, text ";"]) (text " ;")]

/-- They are shown on three lines as they are on one. -/
theorem exists_visible_typeset_callInFill :
    (∀ c, Text.isBlank c = true → c.isWhitespace = true) ∧
      0 < ({ printWidth := 4 } : LayoutOptions).indentWidth ∧ callInFill.suffixDepth = 0 ∧
      callInFill.choicesAgree Char.isWhitespace = true ∧
      ∃ output, callInFill.typeset { printWidth := 4 } = .ok output ∧
        Text.visible Char.isWhitespace output.toList = "f(a,b);".toList := by
  have hwhite : ∀ c, Text.isBlank c = true → c.isWhitespace = true := by
    intro c hc
    simp only [Text.isBlank, Bool.or_eq_true, beq_iff_eq] at hc
    obtain ((rfl | rfl) | rfl) | rfl := hc <;> rfl
  have hheld : callInFill.suffixDepth = 0 := by decide
  have hagree : callInFill.choicesAgree Char.isWhitespace = true := by decide
  exact ⟨hwhite, by decide, hheld, hagree,
    exists_visible_typeset hwhite { printWidth := 4 } (by decide) hheld hagree⟩

end Doc

end Reflow
