/-!
# Text/Quote — attribute strings and their quotes

An attribute string has no escapes but the entities of the two quotes.  Its value is what stands
between its first and last character, entities decoded; it is written back in the quote that has to
be escaped least often, and only that quote is escaped.
-/

namespace Reflow

/-- The two quotes a string is delimited by. -/
inductive Quote where
  | double
  | single
  deriving DecidableEq, Repr

namespace Quote

/-- The character of a quote. -/
def char : Quote → Char
  | double => '"'
  | single => '\''

/-- The entity that stands for the quote inside a string. -/
def entity : Quote → String
  | double => "&quot;"
  | single => "&apos;"

/-- The quote that is not this one. -/
def other : Quote → Quote
  | double => single
  | single => double

/-- The quote of a value: the **preferred** one, unless the value holds strictly more of it than of
the other. -/
def choose (preferred : Quote) (value : List Char) : Quote :=
  if value.count preferred.other.char < value.count preferred.char then preferred.other
  else preferred

end Quote

namespace AttributeString

/-- What stands **between the delimiters**.  A delimiter is one ASCII character; a text without one
at either end has no body, and neither has a text too short for two. -/
def body : List Char → List Char
  | [] => []
  | first :: rest =>
    match rest.getLast? with
    | none => []
    | some last => if first.toNat < 0x80 && last.toNat < 0x80 then rest.dropLast else []

/-- Decoding: each entity of a quote, read from the left, is that quote. -/
def decode : List Char → List Char
  | '&' :: 'a' :: 'p' :: 'o' :: 's' :: ';' :: rest => '\'' :: decode rest
  | '&' :: 'q' :: 'u' :: 'o' :: 't' :: ';' :: rest => '"' :: decode rest
  | c :: rest => c :: decode rest
  | [] => []

/-- Encoding for a string delimited by `quote`: that quote becomes its entity. -/
def encode (quote : Quote) (value : List Char) : List Char :=
  value.flatMap fun c => if c == quote.char then quote.entity.toList else [c]

@[simp] theorem encode_append (quote : Quote) (xs ys : List Char) :
    encode quote (xs ++ ys) = encode quote xs ++ encode quote ys :=
  List.flatMap_append

/-- A value, written out in `quote`. -/
def written (quote : Quote) (value : List Char) : List Char :=
  quote.char :: encode quote value ++ [quote.char]

/-- The value of an attribute string. -/
def value (raw : String) : List Char := decode (body raw.toList)

/-- The **normal form** of an attribute string: its value, written out in the quote the value
calls for. -/
def normalize (preferred : Quote) (raw : String) : String :=
  String.ofList (written (preferred.choose (value raw)) (value raw))

end AttributeString

end Reflow
