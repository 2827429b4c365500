import QueryScribe.Number.Numeral

/-!
# Doubles

Double precision numbers as exact dyadic values: a mantissa below `2^53` times a power of two from
`2^(-1074)` to `2^971`. Every computation is done on naturals and rounded once, to the nearest value
and to an even mantissa where two are equally near.
-/

namespace QueryScribe

/-- A double precision number. -/
inductive Double
  | finite (negative : Bool) (mantissa : Nat) (exponent : Int)
  | infinite (negative : Bool)
  | nan
deriving DecidableEq, Repr

namespace Double

/-- The least exponent of two. -/
def minExponent : Int := -1074

/-- The greatest exponent of two. -/
def maxExponent : Int := 971

/-- The natural number nearest to a quotient, even if two are. -/
def roundDiv (num den : Nat) : Nat :=
  let q := num / den
  let r := num % den
  if den < 2 * r || (2 * r = den && q % 2 = 1) then q + 1 else q

/-- Whether `num / den` is at least `2^k`. -/
def atLeastPow (num den : Nat) (k : Int) : Bool :=
  if 0 ≤ k then den * Nat.pow 2 k.toNat ≤ num else den ≤ num * Nat.pow 2 (-k).toNat

/-- The double nearest to `num / den` or its negative. -/
def ofRatio (negative : Bool) (num den : Nat) : Double :=
  if num = 0 then finite negative 0 minExponent
  else
    let k : Int := (num.log2 : Int) - den.log2
    let e := max ((if atLeastPow num den k then k else k - 1) - 52) minExponent
    let m :=
      if 0 ≤ e then roundDiv num (den * Nat.pow 2 e.toNat)
      else roundDiv (num * Nat.pow 2 (-e).toNat) den
    let (m, e) := if m = Nat.pow 2 53 then (Nat.pow 2 52, e + 1) else (m, e)
    if maxExponent < e then infinite negative else finite negative m e

/-- The double nearest to an integer. -/
def ofInt (n : Int) : Double := ofRatio (n < 0) n.natAbs 1

/-- The number of decimal digits of a natural number. -/
def digitCount (n : Nat) : Nat := (Nat.toDigits 10 n).length

/-- The double nearest to `coefficient * 10^exponent` or its negative. Exponents far outside the
range of doubles are decided by size. -/
def ofScientific (negative : Bool) (coefficient : Nat) (exponent : Int) : Double :=
  if coefficient = 0 then finite negative 0 minExponent
  else
    let magnitude := exponent + digitCount coefficient
    if 400 < magnitude then infinite negative
    else if magnitude < -400 then finite negative 0 minExponent
    else if 0 ≤ exponent then ofRatio negative (coefficient * Nat.pow 10 exponent.toNat) 1
    else ofRatio negative coefficient (Nat.pow 10 (-exponent).toNat)

/-- The opposite number. -/
def neg : Double → Double
  | finite negative m e => finite (!negative) m e
  | infinite negative => infinite (!negative)
  | nan => nan

/-- The integer part of a finite double. -/
def truncate (negative : Bool) (m : Nat) (e : Int) : Int :=
  let n : Nat := if 0 ≤ e then m * Nat.pow 2 e.toNat else m / Nat.pow 2 (-e).toNat
  if negative then -(n : Int) else n

/-- Digits, and an optional sign and point, as a coefficient and an exponent of ten. -/
structure Scientific where
  coefficient : Nat
  exponent : Int
  rest : List Char

/-- The value of decimal digits after those that make `value`. -/
def digitsValue : Nat → List Char → Nat
  | value, [] => value
  | value, c :: cs => digitsValue (value * 10 + (c.toNat - '0'.toNat)) cs

/-- Digits with an optional point among them, at least one digit. -/
def readFixed? (cs : List Char) : Option Scientific :=
  let whole := cs.takeWhile Char.isDigit
  let rest := cs.dropWhile Char.isDigit
  let (fraction, rest) := match rest with
    | '.' :: rest => (rest.takeWhile Char.isDigit, rest.dropWhile Char.isDigit)
    | rest => ([], rest)
  if whole.isEmpty && fraction.isEmpty then none
  else some ⟨digitsValue 0 (whole ++ fraction), -(fraction.length : Int), rest⟩

/-- The exponent that makes up a whole text: none for the empty one, else a mark, a sign and
digits. -/
def readExponent? : List Char → Option Int
  | [] => some 0
  | c :: cs =>
    if c = 'e' || c = 'E' then
      let (negative, digits) := Numeral.takeSign cs
      if !digits.isEmpty && digits.all Char.isDigit then
        let n := digitsValue 0 digits
        some (if negative then -(n : Int) else n)
      else none
    else none

/-- The double that a text denotes, with digits of any script, blanks around it and the words for
infinity and for what is no number in any case. -/
def read? (cs : List Char) : Option Double := do
  let (negative, cs) := Numeral.takeSign (Text.trimBy Text.isNarrowBlank (← Numeral.toAscii? cs))
  let word := String.ofList (cs.map Char.toLower)
  if word = "inf" || word = "infinity" then return infinite negative
  if word = "nan" then return nan
  let fixed ← readFixed? cs
  let exponent ← readExponent? fixed.rest
  return ofScientific negative fixed.coefficient (fixed.exponent + exponent)

end Double

end QueryScribe
