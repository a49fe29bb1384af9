import Reflow.Text.Quote

/-!
# Options/Basic — what a user may choose

Two groups that never meet: the **language** options shape the document, the **layout** options are
read only when a document is set in lines.
-/

namespace Reflow

/-- The mark between two lines of output. -/
inductive LineBreak where
  | lf
  | crlf
  deriving DecidableEq, Repr

/-- The characters of a line break. -/
def LineBreak.chars : LineBreak → List Char
  | .lf => ['\n']
  | .crlf => ['\r', '\n']

/-- How a document is set in lines. -/
structure LayoutOptions where
  /-- The columns a line should stay within. -/
  printWidth : Nat := 80
  /-- Indent with tabs, each standing for `indentWidth` columns. -/
  useTabs : Bool := false
  /-- The columns of one level of indentation. -/
  indentWidth : Nat := 2
  lineBreak : LineBreak := .lf
  deriving DecidableEq, Repr

/-- How markup is turned into a document. -/
structure LanguageOptions where
  /-- The quotes of ordinary strings; a space that must be spelled out uses them, as in
  `{" "}`. -/
  quotes : Quote := .double
  /-- The preferred quotes of attribute strings. -/
  jsxQuotes : Quote := .double
  /-- Put the bracket that ends a multi-line opening tag after the last attribute instead of on a
  line of its own. -/
  closingBracketSameLine : Bool := false
  deriving DecidableEq, Repr

/-- All options. -/
structure Options where
  layout : LayoutOptions := {}
  language : LanguageOptions := {}
  deriving DecidableEq, Repr

end Reflow
