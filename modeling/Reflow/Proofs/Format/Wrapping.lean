import Reflow.Proofs.Format.Idempotence
import Reflow.Proofs.Markup.Wrapping

/-!
# Proofs/Format/Wrapping — elements of nothing but text

An element of words is formatted on one line if it is within the width.  If it is not, its words are
wrapped greedily between the tags, and so in as few lines as can be (`Node.format_words`).
-/

namespace Reflow

open Dialogue
open Piece (IsBreak)
open Text (Joined)

variable {σ ε : Type} {host : Host σ ε}

/-! ## Tags without attributes -/

namespace OpeningTag

/-- A tag with a name, perhaps with type arguments, and **nothing else**. -/
def bare (name : String) (typeArguments : Option String) : OpeningTag :=
  ⟨⟨name, []⟩, typeArguments.map (⟨·, []⟩), [], false⟩

/-- The texts of such a tag. -/
def bareTexts (name : String) (typeArguments : Option String) : List String :=
  "<" :: name :: (typeArguments.toList ++ [">"])

/-- Its document. -/
def bareDoc (o : LanguageOptions) (name : String) (typeArguments : Option String) : Doc :=
  (bare name typeArguments).doc o (.text name) (typeArguments.elim .nil .text) []

theorem always_bare (h : host.AddsNothing) (o : LanguageOptions) (ancestors : Ancestors)
    (name : String) (typeArguments : Option String) :
    ((bare name typeArguments).document o ancestors).Always host
      (· = bareDoc o name typeArguments) := by
  rw [bare, document]
  refine always_bind ((h.always_comments _).imp ?_)
  rintro _ rfl
  rcases typeArguments with _ | arguments
  · exact always_done rfl
  · refine always_bind ((h.always_comments _).imp ?_)
    rintro _ rfl
    exact always_done rfl

end OpeningTag

namespace Shell

/-- An element with such tags, without its children. -/
def bare (o : LanguageOptions) (name : String) (typeArguments : Option String) (closing : String) :
    Shell :=
  ofElement (.bare name typeArguments) (OpeningTag.bareDoc o name typeArguments)
    (some (Tag.closing (.text closing)))

variable (o : LanguageOptions) (name : String) (typeArguments : Option String) (closing : String)

theorem hasLinelessTags_bare : (bare o name typeArguments closing).HasLinelessTags := by
  cases typeArguments <;> exact ⟨rfl, rfl, rfl, rfl⟩

theorem flatTexts_bare :
    (bare o name typeArguments closing).opening.flatTexts =
      OpeningTag.bareTexts name typeArguments ∧
      (bare o name typeArguments closing).closingDoc.flatTexts = ["</", closing, ">"] := by
  cases typeArguments <;> exact ⟨rfl, rfl⟩

end Shell

namespace Markup

/-- An element with such tags and **one text** between them. -/
def ofText (name : String) (typeArguments : Option String) (closing raw : String) : Markup :=
  .element (.bare name typeArguments) (some ⟨closing, []⟩) [.text raw] []

theorem always_ofText (h : host.AddsNothing) {ancestors : Ancestors}
    (hparens : ancestors.AddNoParens) (o : LanguageOptions) (isEmbedded : Bool) (name : String)
    (typeArguments : Option String) (closing raw : String) :
    ((ofText name typeArguments closing raw).document o ancestors isEmbedded).Always host
      (· = (Shell.bare o name typeArguments closing).doc o isEmbedded [.text raw]) := by
  rw [ofText, document]
  refine always_bind ((OpeningTag.always_bare h o _ name typeArguments).imp ?_)
  rintro _ rfl
  refine always_bind ((Tag.always_closing h (some closing)).imp ?_)
  rintro _ rfl
  refine always_bind ((Node.always_texts (List.forall_mem_singleton.mpr ⟨raw, rfl⟩)).imp ?_)
  rintro _ rfl
  refine always_bind ((h.always_comments _).imp ?_)
  rintro _ rfl
  exact Parens.always_document hparens _

end Markup

/-! ## Words -/

namespace Node

/-- **Elements of text are wrapped greedily.**  The words of a text, between edges that are no
space, come out on one line with the tags if that is within the width.  Otherwise they are wrapped
in indented lines between the tags: a word stays on a line if and only if the line with it is within
the width, and only a line of one word may be wider. -/
theorem format_words (hhost : host.AddsNothing) {position : Position}
    (hparens : position.ancestors.AddNoParens) (hblock : position.isEmbedded = false) (o : Options)
    (hindent : 0 < o.layout.indentWidth) (name : String) (typeArguments : Option String)
    (closing : String) {raw : String} {leading inner trailing : List Char} {ws : List String}
    (hraw : raw.toList = leading ++ inner ++ trailing) (hl : leading = [] ∨ IsBreak leading)
    (ht : trailing = [] ∨ IsBreak trailing) (hjoined : Joined ws inner) (s : σ) :
    ∃ output, ((markup (.ofText name typeArguments closing raw)).format host position o s).1 =
        .ok output ∧
      Text.SetBetween o.layout (OpeningTag.bareTexts name typeArguments) ["</", closing, ">"] ws
        output.toList := by
  obtain ⟨hleading, hnoLead⟩ := edge_of_break hl
  obtain ⟨htrailing, hnoTrail⟩ := edge_of_break ht
  obtain ⟨filling, hwords, rfl⟩ := Filling.exists_isWords hjoined.ne_nil
  set shell := Shell.bare o.language name typeArguments closing
  have htags : shell.HasLinelessTags :=
    Shell.hasLinelessTags_bare o.language name typeArguments closing
  have harrange : Part.arrange shell.isLocalized true [.text raw] =
      Part.wordsLine filling.words := by
    have hlead := Part.Lead.edge hleading
    have htrail := Part.Trail.edge htrailing
    rw [hnoLead] at hlead
    rw [hnoTrail] at htrail
    have h := Part.arrange_texts shell.isLocalized hlead hjoined htrail
    rw [← hraw, String.ofList_toList] at h
    exact h.trans (List.append_nil (Part.wordsLine filling.words))
  have hmeaning : Text.isMeaningful raw = true := TextContent.isMeaningful_of_ofText
    (TextContent.ofText_of_joined hraw hleading htrailing hjoined) (by simp)
  have hdoc : shell.doc o.language false [.text raw] = shell.wordsDoc filling := by
    rw [Shell.doc_of_texts false (List.forall_mem_singleton.mpr ⟨raw, rfl⟩)
      (by simpa [Child.isMeaningfulText] using hmeaning)]
    exact Shell.around_words o.language htags rfl hwords harrange hmeaning
  obtain ⟨_, rfl, -, hformat⟩ := @exists_format_eq _ _ host position o.language
    (markup (.ofText name typeArguments closing raw)) _
    (Markup.always_ofText hhost hparens o.language position.isEmbedded name typeArguments
      closing raw) s
  obtain ⟨output, houtput, hset⟩ := Shell.exists_typeset_words o.layout hindent htags hwords
  obtain ⟨hopening, hclosing⟩ := Shell.flatTexts_bare o.language name typeArguments closing
  rw [hopening, hclosing] at hset
  refine ⟨output, hformat o.layout output ?_, hset⟩
  rw [hblock, hdoc, houtput]

/-- A text on a line of its own, in ten columns. -/
theorem format_words_greeting :
    "\nHello there\n".toList = ['\n'] ++ "Hello there".toList ++ ['\n'] ∧ IsBreak ['\n'] ∧
      Joined ["Hello", "there"] "Hello there".toList ∧
      ∃ output, ((markup (.ofText "p" none "p" "\nHello there\n")).format Host.verbatim {}
          { layout.printWidth := 10 } ()).1 = .ok output ∧
        Text.SetBetween { printWidth := 10 } ["<", "p", ">"] ["</", "p", ">"] ["Hello", "there"]
          output.toList := by
  have hbreak : IsBreak ['\n'] := ⟨List.mem_cons_self, by simp [Text.IsBlankRun, Text.isBlank]⟩
  have hword : Text.IsWord "Hello".toList ∧ Text.IsWord "there".toList := by
    simp [Text.IsWord, Text.isBlank]
  have hjoined : Joined ["Hello", "there"] "Hello there".toList :=
    @Joined.cons "Hello" ["there"] [' '] "there".toList hword.1 isBlankRun_space
      (List.cons_ne_nil _ _)
      (.single hword.2)
  exact ⟨rfl, hbreak, hjoined, format_words Host.addsNothing_verbatim Ancestors.addNoParens_nil rfl
    { layout.printWidth := 10 } (by decide) "p" none "p" rfl (.inr hbreak) (.inr hbreak) hjoined ()⟩

end Node

end Reflow
