import QueryScribe.Text.Printable

/-!
# Quoted texts in messages

Messages show a text between quotes. The quote is single unless the text holds a single quote and
no double one. A backslash and the quote in use get a backslash; line feed, carriage return and tab
have letters; any other unprintable character is written by its number in the shortest of three
hexadecimal forms.
-/

namespace QueryScribe.Text

/-- The lower case hexadecimal digit of a value below sixteen. -/
def hexDigit (n : Nat) : Char := Nat.digitChar n

/-- The last `width` hexadecimal digits of `n`. -/
def hexField : Nat → Nat → List Char
  | 0, _ => []
  | width + 1, n => hexField width (n / 16) ++ [hexDigit (n % 16)]

/-- An unprintable character, by its number. -/
def escapeNumber (n : Nat) : List Char :=
  if n ≤ 0xff then '\\' :: 'x' :: hexField 2 n
  else if n ≤ 0xffff then '\\' :: 'u' :: hexField 4 n
  else '\\' :: 'U' :: hexField 8 n

/-- One character as it stands between the quotes `quote`. -/
def escapeIn (quote c : Char) : List Char :=
  if c == quote || c == '\\' then ['\\', c]
  else if c == '\n' then ['\\', 'n']
  else if c == '\r' then ['\\', 'r']
  else if c == '\t' then ['\\', 't']
  else if isPrintable c then [c]
  else escapeNumber c.toNat

/-- The quote that a text is put in. -/
def quoteFor (cs : List Char) : Char :=
  if cs.contains '\'' && !cs.contains '"' then '"' else '\''

/-- The text between quotes. -/
def quoted (text : String) : String :=
  let cs := text.toList
  let quote := quoteFor cs
  String.ofList (quote :: (cs.flatMap (escapeIn quote) ++ [quote]))

/-- Several quoted texts between brackets. -/
def quotedList (texts : List String) : String :=
  "[" ++ ", ".intercalate (texts.map quoted) ++ "]"

end QueryScribe.Text
