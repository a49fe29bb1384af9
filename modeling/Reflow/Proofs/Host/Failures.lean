import Reflow.Host.Basic

/-!
# Proofs/Host/Failures — a host that fails, and the one that does not

An expression that a host fails on is answered by its text, so what is asked later cannot depend on
the failure.  `Host.lenient` answers like that without failing: a dialogue makes the same calls with
it and ends with the same value (`Dialogue.calls_lenient`, `Dialogue.run_lenient`), and what is left
of the failures is the list of them (`Dialogue.failures_run`).
-/

namespace Reflow

variable {σ ε α : Type}

/-- A **call of a host**: a question, and the state the host is asked in. -/
structure Call (σ : Type) where
  state : σ
  question : Question

namespace Host

/-- The host that **never fails**: where the host does, it answers with the expression as it is
written and goes on in the state the host is left in. -/
def lenient (host : Host σ ε) : Host σ ε :=
  { host with
    expression := fun e ancestors s =>
      match host.expression e ancestors s with
      | (.ok doc, s) => (.ok doc, s)
      | (.error _, s) => (.ok (.text e.raw), s) }

/-- What the host **fails with** when it is called, if it does. -/
def failure? (host : Host σ ε) (call : Call σ) : Option ε :=
  match call.question with
  | .expression e ancestors =>
    match (host.expression e ancestors call.state).1 with
    | .ok _ => none
    | .error failure => some failure
  | .parens _ | .ownComments _ | .comments .. | .dangling .. => none

/-- One answer of the lenient host is the answer of the host **without its failure**. -/
theorem answer_lenient (host : Host σ ε) (s : σ) (q : Question) :
    host.lenient.answer s q = { host.answer s q with failures := [] } := by
  cases q with
  | expression e ancestors =>
    simp only [answer, lenient]
    rcases host.expression e ancestors s with ⟨_ | _, _⟩ <;> rfl
  | parens | ownComments | comments | dangling => rfl

theorem failures_answer (host : Host σ ε) (s : σ) (q : Question) :
    (host.answer s q).failures = (host.failure? ⟨s, q⟩).toList := by
  cases q with
  | expression e ancestors =>
    simp only [answer, failure?]
    rcases host.expression e ancestors s with ⟨_ | _, _⟩ <;> rfl
  | parens | ownComments | comments | dangling => rfl

end Host

namespace Dialogue

/-- The **calls of a dialogue** with a host, in order. -/
def calls (host : Host σ ε) : Dialogue α → σ → List (Call σ)
  | done _, _ => []
  | ask q next, s =>
    let reply := host.answer s q
    ⟨s, q⟩ :: (next reply.value).calls host reply.state

/-- A failure **changes no later call**. -/
theorem calls_lenient (host : Host σ ε) (d : Dialogue α) (s : σ) :
    d.calls host.lenient s = d.calls host s := by
  induction d generalizing s with
  | done => rfl
  | ask q next ih => simp only [calls, host.answer_lenient, ih]

/-- With the lenient host a dialogue comes to the same, **without failures**. -/
theorem run_lenient (host : Host σ ε) (d : Dialogue α) (s : σ) :
    d.run host.lenient s = { d.run host s with failures := [] } := by
  induction d generalizing s with
  | done => rfl
  | ask q next ih => simp only [run, host.answer_lenient, ih, List.append_nil]

/-- The failures of a dialogue are those of its calls, **one for each call that fails**. -/
theorem failures_run (host : Host σ ε) (d : Dialogue α) (s : σ) :
    (d.run host s).failures = (d.calls host s).filterMap host.failure? := by
  induction d generalizing s with
  | done => rfl
  | ask q next ih =>
    simp only [run, calls, host.failures_answer, ih, List.filterMap_cons]
    cases host.failure? ⟨s, q⟩ <;> rfl

end Dialogue

end Reflow
