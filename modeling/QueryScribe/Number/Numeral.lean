import QueryScribe.Text.Blank
import QueryScribe.Text.Digit

/-!
# Integers as text

Reading accepts blanks around the numeral, a sign, the mark of a base and digits of any script;
single underscores may part the digits. Writing gives the shortest numeral, a minus sign before the
mark of the base. Decimal numerals are converted only up to a number of digits.
-/

namespace QueryScribe.Numeral

open Text

/-- The letter that marks a base after a zero. -/
def baseMark? : Nat → Option Char
  | 2 => some 'b'
  | 8 => some 'o'
  | 16 => some 'x'
  | _ => none

/-- The value of a digit or letter as a digit of a large base. -/
def digitValue? (c : Char) : Option Nat :=
  if '0' ≤ c && c ≤ '9' then some (c.toNat - '0'.toNat)
  else if 'a' ≤ c && c ≤ 'z' then some (c.toNat - 'a'.toNat + 10)
  else if 'A' ≤ c && c ≤ 'Z' then some (c.toNat - 'A'.toNat + 10)
  else none

/-- The text in ASCII: blanks beyond it become spaces and digits beyond it digits. Nothing else
beyond ASCII has a place in a numeral. -/
def toAscii? (cs : List Char) : Option (List Char) :=
  cs.mapM fun c =>
    if c.toNat < 127 then some c
    else if isBlank c then some ' '
    else (digit? c).map Nat.digitChar

/-- The value of digits after those that make `value`; an underscore stands between two digits. -/
def readDigits (base : Nat) : (value : Nat) → (afterDigit : Bool) → List Char → Option Nat
  | value, afterDigit, [] => if afterDigit then some value else none
  | value, afterDigit, c :: cs =>
    if c = '_' then if afterDigit then readDigits base value false cs else none
    else
      match digitValue? c with
      | some d => if d < base then readDigits base (value * base + d) true cs else none
      | none => none

/-- A sign and what follows it; true for a minus. -/
def takeSign : List Char → Bool × List Char
  | '+' :: cs => (false, cs)
  | '-' :: cs => (true, cs)
  | cs => (false, cs)

/-- What follows the mark of the base, if it is there; one underscore may follow the mark. -/
def dropMark (base : Nat) : List Char → List Char
  | '0' :: c :: cs =>
    if baseMark? base = some c.toLower then
      match cs with
      | '_' :: cs => cs
      | cs => cs
    else '0' :: c :: cs
  | cs => cs

/-- The integer that a text denotes in a base. -/
def read? (base : Nat) (cs : List Char) : Option Int := do
  let (negative, cs) := takeSign (trimBy isNarrowBlank (← toAscii? cs))
  let n ← readDigits base 0 false (dropMark base cs)
  return if negative then -(n : Int) else n

/-- The most digits with which a decimal numeral is converted. The bases with a mark, which are powers
of two, have no such limit. -/
def maxDigits : Nat := 4300

/-- The integer that a decimal numeral denotes, unless it has too many digits. -/
def readDecimal? (cs : List Char) : Option Int :=
  if maxDigits < (cs.filter isDigit).length then none else read? 10 cs

/-- The numeral of an integer in a base, with its mark if it has one. -/
def write (base : Nat) (n : Int) : List Char :=
  (if n < 0 then ['-'] else []) ++
    (match baseMark? base with
      | some mark => ['0', mark]
      | none => []) ++ Nat.toDigits base n.natAbs

/-- The decimal numeral of an integer. -/
def decimal (n : Int) : String := String.ofList (write 10 n)

end QueryScribe.Numeral
