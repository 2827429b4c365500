import QueryScribe.Number.Double

/-!
# Decimals

Decimal numbers keep every digit: a sign, a coefficient and an exponent of ten. They are read from
many spellings and written in one, plain where the exponent is not positive and the number is not
very small, else scientific.
-/

namespace QueryScribe

/-- A decimal number. -/
inductive Decimal
  | finite (negative : Bool) (coefficient : Nat) (exponent : Int)
  | infinite (negative : Bool)
  | nan
deriving DecidableEq, Repr

namespace Decimal

open Text

/-- The greatest exponent of the first digit. -/
def maxAdjusted : Int := 999999999999999999

/-- The least exponent of the last digit. -/
def minExponent : Int := -1999999999999999997

/-- The text without blanks around it, without underscores and in ASCII digits. -/
def prepare? (cs : List Char) : Option (List Char) :=
  ((trim cs).filter (· ≠ '_')).mapM fun c =>
    if c.toNat = 0 then none
    else if c.toNat ≤ 127 then some c
    else (digit? c).map Nat.digitChar

/-- A finite decimal, if its exponents are in range. -/
def finite? (negative : Bool) (coefficient : Nat) (exponent : Int) : Option Decimal :=
  if exponent + Double.digitCount coefficient - 1 ≤ maxAdjusted && minExponent ≤ exponent then
    some (finite negative coefficient exponent)
  else none

/-- The decimal that a text denotes. -/
def read? (cs : List Char) : Option Decimal := do
  let (negative, cs) := Numeral.takeSign (← prepare? cs)
  let word := cs.map Char.toLower
  if word = "inf".toList || word = "infinity".toList then return infinite negative
  let payload? :=
    if "nan".toList.isPrefixOf word then some (word.drop 3)
    else if "snan".toList.isPrefixOf word then some (word.drop 4)
    else none
  match payload? with
  | some payload => if payload.all Char.isDigit then return nan else none
  | none =>
    let fixed ← Double.readFixed? cs
    let exponent ← Double.readExponent? fixed.rest
    finite? negative fixed.coefficient (fixed.exponent + exponent)

/-- Digits times a power of ten. -/
def layOut (digits : List Char) (exponent : Int) : List Char :=
  let point := digits.length + exponent
  let adjusted := point - 1
  if exponent ≤ 0 && -6 ≤ adjusted then
    if exponent = 0 then digits
    else if 0 < point then digits.take point.toNat ++ '.' :: digits.drop point.toNat
    else '0' :: '.' :: (List.replicate (-point).toNat '0' ++ digits)
  else
    let mantissa := match digits with
      | d :: e :: ds => d :: '.' :: e :: ds
      | ds => ds
    mantissa ++ 'E' :: (if adjusted < 0 then '-' else '+') :: Nat.toDigits 10 adjusted.natAbs

/-- A decimal as text. -/
def write : Decimal → String
  | nan => "NaN"
  | infinite negative => if negative then "-Infinity" else "Infinity"
  | finite negative coefficient exponent =>
    let body := layOut (Nat.toDigits 10 coefficient) exponent
    String.ofList (if negative then '-' :: body else body)

end Decimal

end QueryScribe
