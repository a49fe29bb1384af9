import Reflow.Proofs.Host.Always

/-!
# Proofs/Host/Stateless — hosts that answer alike in every state

A host may keep books of what it was asked, and answer by them.  If it does not, a dialogue comes to
the same value and the same failures wherever it starts (`Dialogue.run_eq_of_isStateless`), and what
was asked before leaves no trace in what comes after (`Dialogue.value_bind_of_isStateless`).
-/

namespace Reflow

variable {σ ε α β : Type}

/-- A host whose answers **depend on nothing but the question**. -/
structure Host.IsStateless (host : Host σ ε) : Prop where
  expression (e : ForeignExpression) (ancestors : Ancestors) (s s' : σ) :
    (host.expression e ancestors s).1 = (host.expression e ancestors s').1
  parens (ancestors : Ancestors) (s s' : σ) :
      (host.parens ancestors s).1 = (host.parens ancestors s').1
  ownComments (e : Expression) (s s' : σ) : (host.ownComments e s).1 = (host.ownComments e s').1
  comments (comments : List Comment) (doc : Doc) (s s' : σ) :
    (host.comments comments doc s).1 = (host.comments comments doc s').1
  dangling (comments : List Comment) (sameIndent : Bool) (s s' : σ) :
    (host.dangling comments sameIndent s).1 = (host.dangling comments sameIndent s').1

variable {host : Host σ ε}

/-- Such a host gives **one answer to a question**, and fails on it always or never. -/
theorem Host.IsStateless.answer (h : host.IsStateless) (q : Question) (s s' : σ) :
    (host.answer s q).value = (host.answer s' q).value ∧
      (host.answer s q).failures = (host.answer s' q).failures := by
  cases q with
  | expression e ancestors =>
    have heq := h.expression e ancestors s s'
    simp only [Host.answer]
    rcases hs : host.expression e ancestors s with ⟨_ | _, _⟩ <;>
      rcases hs' : host.expression e ancestors s' with ⟨_ | _, _⟩ <;>
      rw [hs, hs'] at heq <;> cases heq <;> exact ⟨rfl, rfl⟩
  | parens ancestors => exact ⟨h.parens ancestors s s', rfl⟩
  | ownComments e => exact ⟨h.ownComments e s s', rfl⟩
  | comments comments doc => exact ⟨h.comments comments doc s s', rfl⟩
  | dangling comments sameIndent => exact ⟨h.dangling comments sameIndent s s', rfl⟩

theorem Host.isStateless_verbatim : verbatim.IsStateless :=
  ⟨fun _ _ _ _ => rfl, fun _ _ _ => rfl, fun _ _ _ => rfl, fun _ _ _ _ => rfl, fun _ _ _ _ => rfl⟩

namespace Dialogue

/-- A dialogue with such a host comes to the same **from every state**. -/
theorem run_eq_of_isStateless (h : host.IsStateless) (d : Dialogue α) (s s' : σ) :
    (d.run host s).value = (d.run host s').value ∧
      (d.run host s).failures = (d.run host s').failures := by
  induction d generalizing s s' with
  | done => exact ⟨rfl, rfl⟩
  | ask q next ih =>
    obtain ⟨hvalue, hfailures⟩ := h.answer q s s'
    simp only [run, hvalue, hfailures]
    obtain ⟨hlater, hlast⟩ := ih (host.answer s' q).value (host.answer s q).state
      (host.answer s' q).state
    exact ⟨hlater, by rw [hlast]⟩

/-- The second of two dialogues comes to what it would **without the first**, but for
the value it is told. -/
theorem value_bind_of_isStateless (h : host.IsStateless) (d : Dialogue α) (f : α → Dialogue β)
    (s : σ) : ((d >>= f).run host s).value = ((f (d.run host s).value).run host s).value := by
  rw [run_bind]
  exact (run_eq_of_isStateless h _ _ _).1

end Dialogue

end Reflow
