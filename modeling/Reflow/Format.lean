import Reflow.Host.Basic
import Reflow.Markup.Document
import Reflow.Doc.Typeset

/-!
# Format — markup as text

The whole way from a node to text: the dialogue with a host that ends with a document, and the
document typeset.  Failures of the host come before anything the layout could refuse.
-/

namespace Reflow

/-- Where a node stands in its surroundings. -/
structure Position where
  /-- The parents of the node, nearest first. -/
  ancestors : Ancestors := []
  /-- The node is the body of an **embedded block**, such as markup inside prose: only its children
  are printed, and a space is a space. -/
  isEmbedded : Bool := false
  deriving DecidableEq, Repr

/-- Why a node has no text. -/
inductive FormatError (ε : Type) where
  /-- The host failed on foreign expressions. -/
  | host (failures : List ε)
  | typeset (error : TypesetError)
  deriving DecidableEq, Repr

/-- The message of an error: the failures of a host are listed, one a line. -/
def FormatError.message {ε : Type} [ToString ε] : FormatError ε → String
  | host failures =>
    "failed to print embedded expressions:\n" ++
      String.join (failures.map fun failure => toString failure ++ "\n")
  | typeset error => error.message

namespace Node

variable {σ ε : Type}

/-- The dialogue that **prints** a node in its position. -/
def printing (position : Position) (o : LanguageOptions) (node : Node) : Dialogue Doc :=
  node.document o position.ancestors position.isEmbedded

/-- The **document of a node**, printed with a host, or all the failures of the host. -/
def print (host : Host σ ε) (position : Position) (o : LanguageOptions) (node : Node) (s : σ) :
    Except (FormatError ε) Doc × σ :=
  let outcome := (node.printing position o).run host s
  if outcome.failures.isEmpty then (.ok outcome.value, outcome.state)
  else (.error (.host outcome.failures), outcome.state)

/-- The **text of a node**. -/
def format (host : Host σ ε) (position : Position) (o : Options) (node : Node) (s : σ) :
    Except (FormatError ε) String × σ :=
  let (printed, s) := node.print host position o.language s
  match printed with
  | .error error => (.error error, s)
  | .ok doc =>
    match doc.typeset o.layout with
    | .error error => (.error (.typeset error), s)
    | .ok output => (.ok output, s)

end Node

end Reflow
