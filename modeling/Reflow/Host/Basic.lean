import Reflow.Host.Dialogue
import Reflow.Markup.Comments

/-!
# Host/Basic — hosts, and dialogues with them

A host answers in a state of its own.  An expression it fails on is kept as it is written and the
dialogue goes on, so all failures are known in the end, in the order of the questions.
-/

namespace Reflow

/-- A **host** with its state and its failures.  Only foreign expressions have to be printed; the
other answers have defaults. -/
structure Host (σ ε : Type) where
  expression : ForeignExpression → Ancestors → σ → Except ε Doc × σ
  parens : Ancestors → σ → Bool × σ := fun _ s => (false, s)
  ownComments : Expression → σ → Bool × σ := fun _ s => (false, s)
  comments : List Comment → Doc → σ → Doc × σ :=
    fun comments doc s => (Comment.around comments doc, s)
  dangling : List Comment → Bool → σ → Doc × σ :=
    fun comments sameIndent s => (Comment.dangling comments sameIndent, s)

/-- What comes of a dialogue: its value, the failures on the way and the state
the host is left in. -/
structure Outcome (σ ε α : Type) where
  value : α
  failures : List ε
  state : σ

namespace Host

variable {σ ε α : Type}

/-- The **answer** to a question.  An expression that fails is answered by its text. -/
def answer (host : Host σ ε) (s : σ) : (q : Question) → Outcome σ ε q.Answer
  | .expression e ancestors =>
    match host.expression e ancestors s with
    | (.ok doc, s) => ⟨doc, [], s⟩
    | (.error failure, s) => ⟨.text e.raw, [failure], s⟩
  | .parens ancestors => let (answer, s) := host.parens ancestors s; ⟨answer, [], s⟩
  | .ownComments e => let (answer, s) := host.ownComments e s; ⟨answer, [], s⟩
  | .comments comments doc => let (answer, s) := host.comments comments doc s; ⟨answer, [], s⟩
  | .dangling comments sameIndent =>
    let (answer, s) := host.dangling comments sameIndent s; ⟨answer, [], s⟩

end Host

namespace Dialogue

variable {σ ε α β : Type}

/-- A **dialogue with a host**, from a state of the host. -/
def run (host : Host σ ε) : Dialogue α → σ → Outcome σ ε α
  | done value, s => ⟨value, [], s⟩
  | ask q next, s =>
    let reply := host.answer s q
    let later := (next reply.value).run host reply.state
    { later with failures := reply.failures ++ later.failures }

/-- The **questions of a dialogue** with a host, in order. -/
def transcript (host : Host σ ε) : Dialogue α → σ → List Question
  | done _, _ => []
  | ask q next, s =>
    let reply := host.answer s q
    q :: (next reply.value).transcript host reply.state

@[simp] theorem run_done (host : Host σ ε) (value : α) (s : σ) :
    (done value).run host s = ⟨value, [], s⟩ := rfl

@[simp] theorem transcript_done (host : Host σ ε) (value : α) (s : σ) :
    (done value).transcript host s = [] := rfl

/-- One dialogue after another **runs** in the state the first leaves, and adds its failures. -/
theorem run_bind (host : Host σ ε) (d : Dialogue α) (f : α → Dialogue β) (s : σ) :
    (d >>= f).run host s =
      let first := d.run host s
      let second := (f first.value).run host first.state
      { second with failures := first.failures ++ second.failures } := by
  induction d generalizing s with
  | done => rfl
  | ask q next ih => simp [run, ih]

/-- The second of two dialogues asks what it asks in the state the first leaves. -/
theorem transcript_bind (host : Host σ ε) (d : Dialogue α) (f : α → Dialogue β) (s : σ) :
    (d >>= f).transcript host s =
      d.transcript host s ++
        (f (d.run host s).value).transcript host (d.run host s).state := by
  induction d generalizing s with
  | done => rfl
  | ask q next ih => simp [run, transcript, ih]

end Dialogue

end Reflow
