import Reflow.Options.Basic

/-!
# Options/Setting — options read from named settings

A settings file is a list of names with values.  A setting that is left out keeps its default and an
unknown name is ignored; a known name with a value of the wrong kind is an error, also when the
value is missing.
-/

namespace Reflow

/-- The value of a setting, as far as options tell values apart. -/
inductive Setting where
  | number (n : Nat)
  | flag (b : Bool)
  | word (s : String)
  /-- Any other value: a fraction, a negative number, a list, nothing at all. -/
  | other
  deriving DecidableEq, Repr

namespace Setting

/-- The largest number a setting may have. -/
def maxNumber : Nat := UInt64.size - 1

def number? : Setting → Option Nat
  | number n => if n ≤ maxNumber then some n else none
  | _ => none

def flag? : Setting → Option Bool
  | flag b => some b
  | _ => none

def quote? : Setting → Option Quote
  | word "double" => some .double
  | word "single" => some .single
  | _ => none

def lineBreak? : Setting → Option LineBreak
  | word "lf" => some .lf
  | word "crlf" => some .crlf
  | _ => none

end Setting

/-- Why settings are refused. -/
inductive SettingError where
  /-- The named setting has a value it cannot take. -/
  | badValue (name : String)
  deriving DecidableEq, Repr

namespace Options

/-- The options with one setting made, or nothing if its value is refused. -/
def set? (o : Options) (name : String) (value : Setting) : Option Options :=
  match name with
  | "printWidth" => value.number?.map fun n => { o with layout.printWidth := n }
  | "useTabs" => value.flag?.map fun b => { o with layout.useTabs := b }
  | "indentWidth" => value.number?.map fun n => { o with layout.indentWidth := n }
  | "lineBreak" => value.lineBreak?.map fun l => { o with layout.lineBreak := l }
  | "quotes" => value.quote?.map fun q => { o with language.quotes := q }
  | "jsxQuotes" => value.quote?.map fun q => { o with language.jsxQuotes := q }
  | "closingBracketSameLine" =>
    value.flag?.map fun b => { o with language.closingBracketSameLine := b }
  | _ => some o

/-- The options that named settings make, starting from the defaults. -/
def ofSettings (settings : List (String × Setting)) : Except SettingError Options :=
  settings.foldlM (fun o (name, value) =>
    match o.set? name value with
    | some o => .ok o
    | none => .error (.badValue name)) {}

end Options

end Reflow
