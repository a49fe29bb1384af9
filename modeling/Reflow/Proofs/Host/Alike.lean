import Reflow.Host.Basic
import Reflow.Proofs.Syntax.Alike

/-!
# Proofs/Host/Alike — dialogues a host takes for the same

A host is shown a text between two tags in one kind of question only: when markup is spread with
comments on it, it is asked whether it prints these comments itself.  So a host that gives
expressions that are alike the same answer there overlooks the texts (`Host.OverlooksTexts`), and
only the questions of the one dialogue matter for that.

Two dialogues agree with a host if, from every state in which it overlooks the texts in what the
first one asks, they ask it alike, fail alike, leave it in the same state and end with values that
are related (`Dialogue.Agree`).  There is one rule for each way of putting dialogues together.
-/

namespace Reflow

variable {σ ε α α' β β' : Type} {host : Host σ ε}

/-- Questions that are **alike**: the same question, or whether the host prints the comments of
expressions that are alike. -/
inductive Question.Alike : Question → Question → Prop
  | same (q : Question) : Question.Alike q q
  | ownComments {e e' : Expression} (h : e.Alike e') :
      Question.Alike (.ownComments e) (.ownComments e')

namespace Host

/-- Whether a host answers alike when it is asked about the **own comments** of two expressions. -/
def TreatsAlike (host : Host σ ε) (e e' : Expression) : Prop :=
  ∀ s, host.ownComments e s = host.ownComments e' s

/-- A host **overlooks the texts** in what it is asked: it treats an expression whose own comments
are asked for and any that is alike to it the same. -/
def OverlooksTexts (host : Host σ ε) (asked : List Question) : Prop :=
  ∀ e e', .ownComments e ∈ asked → e.Alike e' → host.TreatsAlike e e'

theorem overlooksTexts_append {xs ys : List Question} :
    host.OverlooksTexts (xs ++ ys) ↔ host.OverlooksTexts xs ∧ host.OverlooksTexts ys where
  mp h := ⟨fun e e' he => h e e' (List.mem_append_left ys he),
    fun e e' he => h e e' (List.mem_append_right xs he)⟩
  mpr h e e' he := (List.mem_append.mp he).elim (h.1 e e') (h.2 e e')

end Host

namespace Dialogue

/-- Dialogues that **agree from a state** of the host, as far as `R` tells their values apart. -/
structure AgreeFrom (host : Host σ ε) (R : α → α' → Prop) (s : σ) (d : Dialogue α)
    (d' : Dialogue α') : Prop where
  asked : List.Forall₂ Question.Alike (d.transcript host s) (d'.transcript host s)
  failures : (d.run host s).failures = (d'.run host s).failures
  state : (d.run host s).state = (d'.run host s).state
  value : R (d.run host s).value (d'.run host s).value

/-- Dialogues that **agree** with a host wherever it overlooks the texts in what
the first one asks. -/
def Agree (host : Host σ ε) (R : α → α' → Prop) (d : Dialogue α) (d' : Dialogue α') : Prop :=
  ∀ s, host.OverlooksTexts (d.transcript host s) → AgreeFrom host R s d d'

variable {R : α → α' → Prop} {S : β → β' → Prop} {d : Dialogue α} {d' : Dialogue α'}

theorem agree_done {value : α} {value' : α'} (h : R value value') :
    (done value).Agree host R (done value') :=
  fun _ _ => ⟨.nil, rfl, rfl, h⟩

/-- A dialogue agrees **with itself**. -/
theorem agree_rfl (d : Dialogue α) : d.Agree host Eq d :=
  fun _ _ => ⟨List.forall₂_same.mpr fun q _ => .same q, rfl, rfl, rfl⟩

/-- Here the host is **shown the texts**, and overlooks them. -/
theorem agree_ownComments {e e' : Expression} (h : e.Alike e') :
    (question (.ownComments e)).Agree host Eq (question (.ownComments e')) := by
  intro s hasked
  have hown : host.ownComments e s = host.ownComments e' s := hasked e e' List.mem_cons_self h s
  exact ⟨.cons (.ownComments h) .nil, rfl, congrArg Prod.snd hown, congrArg Prod.fst hown⟩

theorem Agree.bind {f : α → Dialogue β} {f' : α' → Dialogue β'} (h : d.Agree host R d')
    (hf : ∀ value value', R value value' → (f value).Agree host S (f' value')) :
    (d >>= f).Agree host S (d' >>= f') := by
  intro s hasked
  rw [transcript_bind, Host.overlooksTexts_append] at hasked
  obtain ⟨hfirst, hsecond⟩ := hasked
  have first := h s hfirst
  -- the first dialogues leave one state, in which both second ones start
  have second := hf _ _ first.value _ hsecond
  constructor
  · rw [transcript_bind, transcript_bind, ← first.state]
    exact List.rel_append first.asked second.asked
  · simp only [run_bind, ← first.state]
    exact congrArg₂ _ first.failures second.failures
  · simp only [run_bind, ← first.state]
    exact second.state
  · simp only [run_bind, ← first.state]
    exact second.value

/-- After dialogues that end **with the same** it goes on with the same. -/
theorem Agree.then {d d' : Dialogue α} {f : α → Dialogue β} {f' : α → Dialogue β'}
    (h : d.Agree host Eq d') (hf : ∀ value, (f value).Agree host S (f' value)) :
    (d >>= f).Agree host S (d' >>= f') := by
  refine h.bind fun value value' heq => ?_
  rw [← heq]
  exact hf value

end Dialogue

end Reflow
