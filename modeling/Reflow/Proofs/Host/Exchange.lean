import Reflow.Host.Basic

/-!
# Proofs/Host/Exchange — what is asked and what comes back

The transcript of a dialogue holds its questions; with the answers it is a list of **exchanges**.
`Dialogue.Tells` is a postcondition on the value of a dialogue together with what is seen of its
exchanges: one rule for each way to put dialogues together, and what is seen adds up along a bind.
-/

namespace Reflow

variable {σ ε α β γ : Type}

/-- A question **with its answer**. -/
structure Exchange where
  question : Question
  answer : question.Answer

namespace Dialogue

/-- The **exchanges of a dialogue** with a host, in order. -/
def exchanges (host : Host σ ε) : Dialogue α → σ → List Exchange
  | done _, _ => []
  | ask q next, s =>
    let reply := host.answer s q
    ⟨q, reply.value⟩ :: (next reply.value).exchanges host reply.state

/-- Without the answers the exchanges are the transcript. -/
theorem map_question_exchanges (host : Host σ ε) (d : Dialogue α) (s : σ) :
    (d.exchanges host s).map Exchange.question = d.transcript host s := by
  induction d generalizing s with
  | done => rfl
  | ask q next ih =>
    rw [exchanges, transcript, List.map_cons, ih]

/-- One dialogue after another exchanges what the two do, the second in the
state the first leaves. -/
theorem exchanges_bind (host : Host σ ε) (d : Dialogue α) (f : α → Dialogue β) (s : σ) :
    (d >>= f).exchanges host s =
      d.exchanges host s ++ (f (d.run host s).value).exchanges host (d.run host s).state := by
  induction d generalizing s with
  | done => rfl
  | ask q next ih =>
    rw [ask_bind, exchanges, exchanges, ih, List.cons_append]
    rfl

/-- A dialogue that **tells** something: from every state of the host `Q` holds of what `view` sees
in its exchanges and of its value. -/
def Tells (host : Host σ ε) (view : Exchange → List γ) (d : Dialogue α) (Q : List γ → α → Prop) :
    Prop :=
  ∀ s, Q ((d.exchanges host s).flatMap view) (d.run host s).value

section Tells

variable {host : Host σ ε} {view : Exchange → List γ}

/-- What is seen of the questions alone can be read off the **transcript**. -/
theorem Tells.transcript (view : Question → List γ) {d : Dialogue α} {Q : List γ → α → Prop}
    (h : d.Tells host (fun exchange => view exchange.question) Q) (s : σ) :
    Q ((d.transcript host s).flatMap view) (d.run host s).value := by
  rw [← map_question_exchanges, List.flatMap_map]
  exact h s

theorem Tells.imp {d : Dialogue α} {P Q : List γ → α → Prop} (h : d.Tells host view P)
    (hPQ : ∀ seen value, P seen value → Q seen value) : d.Tells host view Q :=
  fun s => hPQ _ _ (h s)

theorem tells_done {value : α} {Q : List γ → α → Prop} (h : Q [] value) :
    (done value).Tells host view Q :=
  fun _ => h

theorem tells_question {q : Question} {Q : List γ → q.Answer → Prop}
    (h : ∀ s, Q (view ⟨q, (host.answer s q).value⟩) (host.answer s q).value) :
    (question q).Tells host view Q := by
  intro s
  have hview : ((question q).exchanges host s).flatMap view =
      view ⟨q, (host.answer s q).value⟩ := List.append_nil _
  rw [hview]
  exact h s

/-- What is seen **adds up** along a bind. -/
theorem tells_bind {d : Dialogue α} {f : α → Dialogue β} {Q : List γ → β → Prop}
    (h : d.Tells host view fun seen value =>
      (f value).Tells host view fun later result => Q (seen ++ later) result) :
    (d >>= f).Tells host view Q := by
  intro s
  rw [exchanges_bind, List.flatMap_append, run_bind]
  exact h s _

end Tells

end Dialogue

end Reflow
