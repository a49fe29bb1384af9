import Reflow.Syntax.Tree
import Reflow.Doc.Basic

/-!
# Host/Dialogue — questions to the host

Printing markup is a **dialogue** with a host: it asks for the document of a foreign expression, for
comments and for parentheses, and goes on with the answer.  A dialogue is data, so what is asked,
and in which order, can be said without a host.
-/

namespace Reflow

/-- What the host is asked. -/
inductive Question where
  /-- The document of a foreign expression under its ancestors. -/
  | expression (e : ForeignExpression) (ancestors : Ancestors)
  /-- Whether markup under these ancestors gets parentheses anyway. -/
  | parens (ancestors : Ancestors)
  /-- Whether the host prints the comments of an expression together with it. -/
  | ownComments (e : Expression)
  /-- A document surrounded by its comments. -/
  | comments (comments : List Comment) (doc : Doc)
  /-- The comments of a place without content. -/
  | dangling (comments : List Comment) (sameIndent : Bool)

/-- The type of an answer. -/
@[reducible] def Question.Answer : Question → Type
  | expression .. | comments .. | dangling .. => Doc
  | parens _ | ownComments _ => Bool

/-- A **dialogue** that ends with a value. -/
inductive Dialogue (α : Type) : Type where
  | done (value : α)
  | ask (q : Question) (next : q.Answer → Dialogue α)

namespace Dialogue

variable {α β γ : Type}

/-- One dialogue after another. -/
def bind : Dialogue α → (α → Dialogue β) → Dialogue β
  | done value, f => f value
  | ask q next, f => ask q fun answer => (next answer).bind f

instance : Monad Dialogue where
  pure := done
  bind := bind

/-- The dialogue of one question. -/
def question (q : Question) : Dialogue q.Answer := ask q done

@[simp] theorem pure_eq (value : α) : (pure value : Dialogue α) = done value := rfl

@[simp] theorem done_bind (value : α) (f : α → Dialogue β) : done value >>= f = f value := rfl

@[simp] theorem ask_bind (q : Question) (next : q.Answer → Dialogue α) (f : α → Dialogue β) :
    ask q next >>= f = ask q fun answer => next answer >>= f := rfl

theorem bind_done (d : Dialogue α) : d >>= done = d := by
  induction d with
  | done => rfl
  | ask q next ih => rw [ask_bind]; exact congrArg (ask q) (funext ih)

/-- How a dialogue is **cut into parts** makes no difference. -/
theorem bind_bind (d : Dialogue α) (f : α → Dialogue β) (g : β → Dialogue γ) :
    d >>= f >>= g = d >>= fun value => f value >>= g := by
  induction d with
  | done => rfl
  | ask q next ih => simp only [ask_bind]; exact congrArg (ask q) (funext ih)

instance : LawfulMonad Dialogue :=
  LawfulMonad.mk' Dialogue
    (fun d => bind_done d)
    (fun _ _ => rfl)
    (fun d f g => bind_bind d f g)

end Dialogue

end Reflow
