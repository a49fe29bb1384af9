import Reflow.Doc.Basic
import Reflow.Layout.Basic

/-!
# Doc/Resolve — from documents to layouts

Resolving a document settles what the width cannot change.  A group that is bound to break is broken
here, and with it the lines directly inside; the others stay groups of the layout.  Text held back
to the end of a line waits in a list of pending documents, which the next line break that is certain
to be printed takes with it.

Pending text is itself resolved when it is flushed, and may hold back more.  `flushAt n` does so for
text that is held back at most `n` deep; `Doc.layout` starts it at the depth of the document.
-/

namespace Reflow

/-- What is known about the nearest group. -/
inductive GroupState where
  /-- Nothing inside may break. -/
  | flat
  /-- It breaks for sure. -/
  | broken
  /-- The width decides. -/
  | undecided
  deriving DecidableEq, Repr

/-- A layout and the documents still held back after it. -/
structure Resolved where
  layout : Layout
  pending : List Doc

namespace Doc

/-- How a separator of a fill is treated. -/
inductive SeparatorKind where
  /-- A hard line: it always breaks, and may be the break of an empty line. -/
  | hardLine
  /-- Anything else that is bound to break. -/
  | breaking
  /-- A line that is a space when flat: it looks ahead to the next break. -/
  | space
  /-- Anything else: it is tried flat, whatever follows. -/
  | other
  deriving DecidableEq, Repr

/-- The treatment of a document as a separator. -/
def separatorKind : Doc → SeparatorKind
  | line .hard => .hardLine
  | line .orSpace => .space
  | doc => if doc.willBreak then .breaking else .other

/-- Whether the next document that prints anything is a **line break for sure**, given the state of
the group. -/
def nextIsBreak (state : GroupState) (docs : List Doc) : Bool :=
  match docs.find? fun doc => !doc.isEmpty with
  | some (line .hard) => true
  | some (line _) => state == .broken
  | _ => false

/-- How pending documents are set before a line break. -/
abbrev Flush := List Doc → Resolved

/-- A line break that is certain, after what is pending.  Before another one it is the break of an
empty line, which is not indented. -/
def certainBreak (flush : Flush) (beforeBreak : Bool) (pending : List Doc) : Resolved :=
  let mark := if beforeBreak then Layout.blankLine else .newline
  if pending.isEmpty then ⟨mark, []⟩
  else
    let flushed := flush pending
    ⟨.seq flushed.layout mark, flushed.pending⟩

/-- A **line**: certain if it is hard or its group is broken. -/
def resolveLine (flush : Flush) (state : GroupState) (kind : LineKind) (beforeBreak : Bool)
    (pending : List Doc) : Resolved :=
  match kind, state with
  | .hard, _ | _, .broken => certainBreak flush beforeBreak pending
  | .orSpace, .flat => ⟨.text " ", pending⟩
  | .orNil, .flat => ⟨.nil, pending⟩
  | .orSpace, .undecided => ⟨.softBreak 1, pending⟩
  | .orNil, .undecided => ⟨.softBreak 0, pending⟩

/-- The **end of a line** that is only needed if something is pending. -/
def resolveBoundary (flush : Flush) (pending : List Doc) : Resolved :=
  if pending.isEmpty then ⟨.nil, []⟩ else certainBreak flush false pending

/-- The state of a group's contents: a group that is not inside a flat one breaks for sure if it is
bound to, and otherwise leaves the decision to the width. -/
def innerState (state : GroupState) (boundToBreak : Bool) : GroupState :=
  match state with
  | .flat => .flat
  | .broken | .undecided => if boundToBreak then .broken else .undecided

/-- A layout in the group its state calls for: only an undecided one is left to the width. -/
def inGroup (state : GroupState) (layout : Layout) : Layout :=
  match state with
  | .undecided => .group layout
  | .flat | .broken => layout

mutual

/-- **Resolving** a document in a group of the given state, with documents pending.
`beforeBreak` says that a line break is sure to follow; only a line looks at it, and nothing
inside a document does. -/
def resolve (flush : Flush) (indentWidth : Nat) (state : GroupState) (beforeBreak : Bool)
    (doc : Doc) (pending : List Doc) : Resolved :=
  match doc with
  | text s => ⟨.text s, pending⟩
  | concat docs => resolveAll flush indentWidth state docs pending
  | line kind => resolveLine flush state kind beforeBreak pending
  | indent contents =>
    let inner := resolve flush indentWidth state false contents pending
    ⟨.nest indentWidth inner.layout, inner.pending⟩
  | group shouldBreak contents =>
    let inside := innerState state (shouldBreak || contents.willBreak)
    let inner := resolve flush indentWidth inside false contents pending
    ⟨inGroup inside inner.layout, inner.pending⟩
  | fill parts =>
    match state with
    | .flat => resolveAll flush indentWidth .flat parts pending
    | .broken | .undecided => fillFromContent flush indentWidth parts pending
  | ifBreak broken flat =>
    match state with
    | .flat => resolve flush indentWidth .flat false flat pending
    | .broken => resolve flush indentWidth .broken false broken pending
    | .undecided =>
      let whenFlat := resolve flush indentWidth .flat false flat pending
      let whenBroken := resolve flush indentWidth .undecided false broken whenFlat.pending
      ⟨.choice whenFlat.layout whenBroken.layout, whenBroken.pending⟩
  | conditional variants =>
    match state with
    | .flat => resolveFirst flush indentWidth variants pending
    | .broken | .undecided =>
      if pending.isEmpty then resolveVariants flush indentWidth variants pending
      else resolveLast flush indentWidth variants pending
  | lineSuffix contents => ⟨.nil, pending ++ [contents]⟩
  | suffixBoundary => resolveBoundary flush pending
termination_by structural doc

/-- Documents in sequence.  Each sees what follows it, to tell the break of an empty line. -/
def resolveAll (flush : Flush) (indentWidth : Nat) (state : GroupState) (docs : List Doc)
    (pending : List Doc) : Resolved :=
  match docs with
  | [] => ⟨.nil, pending⟩
  | doc :: docs =>
    let here := resolve flush indentWidth state (nextIsBreak state docs) doc pending
    let later := resolveAll flush indentWidth state docs here.pending
    ⟨.seq here.layout later.layout, later.pending⟩
termination_by structural docs

/-- The parts of a fill, a **content** first: each content is a group of its own. -/
def fillFromContent (flush : Flush) (indentWidth : Nat) (parts : List Doc)
    (pending : List Doc) : Resolved :=
  match parts with
  | [] => ⟨.nil, pending⟩
  | content :: parts =>
    let inside := innerState .undecided content.willBreak
    let here := resolve flush indentWidth inside false content pending
    let later := fillFromSeparator flush indentWidth parts here.pending
    ⟨.seq (inGroup inside here.layout) later.layout, later.pending⟩
termination_by structural parts

/-- The parts of a fill, a **separator** first: flat if it fits, else broken.  Something pending
needs the line break, and leaves no choice. -/
def fillFromSeparator (flush : Flush) (indentWidth : Nat) (parts : List Doc)
    (pending : List Doc) : Resolved :=
  match parts with
  | [] => ⟨.nil, pending⟩
  | separator :: parts =>
    let here : Resolved :=
      match separator.separatorKind, pending with
      | .hardLine, _ => certainBreak flush (nextIsBreak .undecided parts) pending
      | .breaking, _ | _, _ :: _ => resolve flush indentWidth .broken false separator pending
      | .space, [] => ⟨.group (.softBreak 1), []⟩
      | .other, [] =>
        let whenFlat := resolve flush indentWidth .flat false separator []
        let whenBroken := resolve flush indentWidth .broken false separator whenFlat.pending
        ⟨.firstFit whenFlat.layout whenBroken.layout, whenBroken.pending⟩
    let later := fillFromContent flush indentWidth parts here.pending
    ⟨.seq here.layout later.layout, later.pending⟩
termination_by structural parts

/-- The variants of a choice: the last one broken, and each earlier one that need not break as an
attempt before it. -/
def resolveVariants (flush : Flush) (indentWidth : Nat) (variants : List Doc)
    (pending : List Doc) : Resolved :=
  match variants with
  | [] => ⟨.nil, pending⟩
  | variant :: others =>
    if others.isEmpty then resolve flush indentWidth .broken false variant pending
    else
      let fallback := resolveVariants flush indentWidth others pending
      if variant.willBreak then fallback
      else
        let attempt := resolve flush indentWidth .flat false variant fallback.pending
        ⟨.firstFit attempt.layout fallback.layout, attempt.pending⟩
termination_by structural variants

/-- The first variant alone, flat. -/
def resolveFirst (flush : Flush) (indentWidth : Nat) (variants : List Doc)
    (pending : List Doc) : Resolved :=
  match variants with
  | [] => ⟨.nil, pending⟩
  | variant :: _ => resolve flush indentWidth .flat false variant pending
termination_by structural variants

/-- The last variant alone, broken. -/
def resolveLast (flush : Flush) (indentWidth : Nat) (variants : List Doc)
    (pending : List Doc) : Resolved :=
  match variants with
  | [] => ⟨.nil, pending⟩
  | variant :: others =>
    if others.isEmpty then resolve flush indentWidth .broken false variant pending
    else resolveLast flush indentWidth others pending
termination_by structural variants

end

/-- Documents that were held back, one after the other and flat. -/
def resolveEach (flush : Flush) (indentWidth : Nat) : List Doc → List Doc → Resolved
  | [], pending => ⟨.nil, pending⟩
  | doc :: docs, pending =>
    let here := resolve flush indentWidth .flat false doc pending
    let later := resolveEach flush indentWidth docs here.pending
    ⟨.seq here.layout later.layout, later.pending⟩

/-- **Flushing** pending documents that hold back text at most `depth - 1` deep: what they hold back
themselves is pending afterwards, unless a line break in one of them has flushed it. -/
def flushAt (indentWidth : Nat) : (depth : Nat) → Flush
  | 0, _ => ⟨.nil, []⟩
  | depth + 1, docs => resolveEach (flushAt indentWidth depth) indentWidth docs []

/-- The **layout of a document** that stands alone, in a broken group.  What is pending at its end
is set there. -/
def layout (indentWidth : Nat) (doc : Doc) : Layout :=
  let flush := flushAt indentWidth doc.suffixDepth
  let whole := resolve flush indentWidth .broken false doc []
  if whole.pending.isEmpty then whole.layout
  else .seq whole.layout (flush whole.pending).layout

end Doc

end Reflow
