import Reflow.Host.Basic

/-!
# Proofs/Host/Always — what every dialogue with a host comes to

A host answers from a state that no theorem about the output should depend on.  `Dialogue.Always` is
the postcondition of a dialogue in whatever state it starts, with no failure on the way; it is
proved question by question.
-/

namespace Reflow

variable {σ ε α β : Type}

namespace Dialogue

/-- A dialogue that **always ends well**: from every state of the host, without a failure and with a
value that satisfies `P`. -/
def Always (host : Host σ ε) (d : Dialogue α) (P : α → Prop) : Prop :=
  ∀ s, (d.run host s).failures = [] ∧ P (d.run host s).value

variable {host : Host σ ε} {P Q : α → Prop}

theorem Always.imp {d : Dialogue α} (h : d.Always host P) (hPQ : ∀ value, P value → Q value) :
    d.Always host Q :=
  fun s => ⟨(h s).1, hPQ _ (h s).2⟩

theorem always_done {value : α} (h : P value) : (done value).Always host P := fun _ => ⟨rfl, h⟩

/-- A question comes to what the host answers **in every state**, if it never fails to. -/
theorem always_question {q : Question} {P : q.Answer → Prop}
    (h : ∀ s, (host.answer s q).failures = [] ∧ P (host.answer s q).value) :
    (question q).Always host P := by
  intro s
  obtain ⟨hfailures, hvalue⟩ := h s
  exact ⟨by simp [question, run, hfailures], hvalue⟩

/-- What follows has to come well of **every answer that is possible** up to there. -/
theorem always_bind {d : Dialogue α} {f : α → Dialogue β} {R : β → Prop}
    (h : d.Always host fun value => (f value).Always host R) : (d >>= f).Always host R := by
  intro s
  obtain ⟨hfailures, hnext⟩ := h s
  obtain ⟨hlater, hvalue⟩ := hnext (d.run host s).state
  rw [run_bind]
  exact ⟨by simp [hfailures, hlater], hvalue⟩

theorem always_map {d : Dialogue α} {f : α → β} {R : β → Prop}
    (h : d.Always host fun value => R (f value)) : (f <$> d).Always host R := by
  rw [map_eq_pure_bind]
  exact always_bind (h.imp fun _ hvalue => always_done hvalue)

end Dialogue

namespace Host

/-- An expression that the host prints **in every state alike**. -/
theorem always_expression {host : Host σ ε} {e : ForeignExpression} {ancestors : Ancestors}
    {doc : Doc} (h : ∀ s, (host.expression e ancestors s).1 = .ok doc) :
    (Dialogue.question (.expression e ancestors)).Always host (· = doc) := by
  refine Dialogue.always_question fun s => ?_
  rw [answer]
  have hs := h s
  split
  · next printed s' hrun =>
    rw [hrun] at hs
    exact ⟨rfl, Except.ok.inj hs⟩
  · next failure s' hrun =>
    rw [hrun] at hs
    cases hs

/-- A host that **adds nothing** where there are no comments, as by default. -/
structure AddsNothing (host : Host σ ε) : Prop where
  comments (doc : Doc) (s : σ) : (host.comments [] doc s).1 = doc
  dangling (s : σ) : (host.dangling [] true s).1 = .nil

namespace AddsNothing

variable {host : Host σ ε}

/-- No comments around a document **leave it as it is**. -/
theorem always_comments (h : host.AddsNothing) (doc : Doc) :
    (Dialogue.question (.comments [] doc)).Always host (· = doc) :=
  Dialogue.always_question fun s => ⟨rfl, h.comments doc s⟩

theorem always_dangling (h : host.AddsNothing) :
    (Dialogue.question (.dangling [] true)).Always host (· = .nil) :=
  Dialogue.always_question fun s => ⟨rfl, h.dangling s⟩

end AddsNothing

/-- A host that prints expressions **as they are written**, and comments as by default. -/
structure PrintsVerbatim (host : Host σ ε) : Prop where
  expression (e : ForeignExpression) (ancestors : Ancestors) (s : σ) :
    (host.expression e ancestors s).1 = .ok (.text e.raw)
  comments (comments : List Comment) (doc : Doc) (s : σ) :
    (host.comments comments doc s).1 = Comment.around comments doc
  dangling (comments : List Comment) (sameIndent : Bool) (s : σ) :
    (host.dangling comments sameIndent s).1 = Comment.dangling comments sameIndent

namespace PrintsVerbatim

variable {host : Host σ ε}

theorem always_comments (h : host.PrintsVerbatim) (comments : List Comment) (doc : Doc) :
    (Dialogue.question (.comments comments doc)).Always host (· = Comment.around comments doc) :=
  Dialogue.always_question fun s => ⟨rfl, h.comments comments doc s⟩

theorem always_dangling (h : host.PrintsVerbatim) (comments : List Comment) (sameIndent : Bool) :
    (Dialogue.question (.dangling comments sameIndent)).Always host
      (· = Comment.dangling comments sameIndent) :=
  Dialogue.always_question fun s => ⟨rfl, h.dangling comments sameIndent s⟩

end PrintsVerbatim

/-- The host that prints expressions **as they are written**, and leaves the
rest to the defaults. -/
def verbatim : Host Unit Empty where
  expression e _ s := (.ok (.text e.raw), s)

/-- It adds nothing **in the one state** it has. -/
theorem addsNothing_verbatim : verbatim.AddsNothing := ⟨fun _ _ => rfl, fun _ => rfl⟩

theorem printsVerbatim_verbatim : verbatim.PrintsVerbatim :=
  ⟨fun _ _ _ => rfl, fun _ _ _ => rfl, fun _ _ _ => rfl⟩

end Host

end Reflow
