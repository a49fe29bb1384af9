import Mathlib.Tactic.SplitIfs
import Reflow.Format
import Reflow.Proofs.Host.Failures

/-!
# Proofs/Format/Failures — failures of a host are collected

Printing goes on after a failure as if the host had answered with the expression as it is written,
and in the end all failures are there (`Node.print_lenient`).
-/

namespace Reflow.Node

variable {σ ε : Type}

/-- The **calls made** while a node is printed, in order. -/
def calls (host : Host σ ε) (position : Position) (o : LanguageOptions) (node : Node) (s : σ) :
    List (Call σ) :=
  (node.printing position o).calls host s

/-- **Failures do not disturb the printing, and all of them are reported.**  The host and the one
that never fails are called alike, in the same states; the lenient one always gets a document, and
so does the host unless a call fails.  Then its failures are reported, one for each call that fails,
in the order of the calls. -/
theorem print_lenient (host : Host σ ε) (position : Position) (o : LanguageOptions) (node : Node)
    (s : σ) :
    let calls := node.calls host position o s
    node.calls host.lenient position o s = calls ∧
      ∃ doc s', node.print host.lenient position o s = (.ok doc, s') ∧
        node.print host position o s =
          (if calls.any fun call => (host.failure? call).isSome
            then .error (.host (calls.filterMap host.failure?)) else .ok doc, s') := by
  intro calls
  let outcome := (node.printing position o).run host s
  have hfailures : outcome.failures = calls.filterMap host.failure? := Dialogue.failures_run ..
  have hnone : (calls.filterMap host.failure?).isEmpty =
      !calls.any fun call => (host.failure? call).isSome := by
    rw [Bool.eq_iff_iff]
    simp
  refine ⟨Dialogue.calls_lenient .., outcome.value, outcome.state, ?_, ?_⟩
  · rw [print, Dialogue.run_lenient]
    rfl
  · rw [print, hfailures, hnone]
    cases calls.any fun call => (host.failure? call).isSome <;> rfl

section Printed

variable {host : Host σ ε} {position : Position} {node : Node} {s : σ} {doc : Doc}

/-- Without failures a node is printed as **the document its dialogue ends with**. -/
theorem print_of_failures {o : LanguageOptions}
    (h : ((node.printing position o).run host s).failures = []) :
    (node.print host position o s).1 = .ok ((node.printing position o).run host s).value := by
  rw [print, h]
  rfl

theorem value_of_print {o : LanguageOptions} (h : (node.print host position o s).1 = .ok doc) :
    ((node.printing position o).run host s).value = doc := by
  rw [print] at h
  split at h
  · exact Except.ok.inj h
  · cases h

/-- What is printed is formatted as its document **is typeset**. -/
theorem format_of_print {o : Options} {output : String}
    (h : (node.print host position o.language s).1 = .ok doc)
    (houtput : doc.typeset o.layout = .ok output) :
    (node.format host position o s).1 = .ok output := by
  rw [format]
  dsimp only
  rw [h]
  dsimp only
  rw [houtput]

/-- And only so: what is formatted is **its document, typeset**. -/
theorem typeset_of_format {o : Options} {output : String}
    (h : (node.format host position o s).1 = .ok output) :
    ((node.printing position o.language).run host s).value.typeset o.layout = .ok output := by
  rw [format, print] at h
  split_ifs at h
  dsimp only at h
  cases htypeset : ((node.printing position o.language).run host s).value.typeset o.layout with
  | error error =>
    rw [htypeset] at h
    cases h
  | ok text =>
    rw [htypeset] at h
    exact congrArg Except.ok (Except.ok.inj h)

end Printed

/-- A host that counts what it is asked for and fails on all but every third expression. -/
private def impatient : Host Nat String where
  expression e _ s := (if s % 3 = 2 then .ok (.text e.raw) else .error e.raw, s + 1)

/-- In `<a {...x}>{y}{z}{x}</a>` the last `x` fails again. -/
example :
    let braced (raw : String) := container (.filled (.foreign ⟨.other, raw, []⟩))
    ((markup (.element ⟨⟨"a", []⟩, none, [.spread (.foreign ⟨.other, "x", []⟩) []], false⟩
      (some ⟨"a", []⟩) [braced "y", braced "z", braced "x"] [])).print impatient {} {} 0).1 =
        .error (.host ["x", "y", "x"]) := rfl

end Reflow.Node
