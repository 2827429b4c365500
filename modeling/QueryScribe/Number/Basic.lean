import QueryScribe.Number.Shortest

/-!
# Numbers

A numeric literal denotes an integer of any size or a double.
-/

namespace QueryScribe

/-- The value of a numeric literal. -/
inductive Number
  | int (n : Int)
  | double (d : Double)
deriving DecidableEq, Repr

/-- Why a number cannot be converted. -/
inductive ConversionFault
  /-- An infinity is no integer, and a large integer is no double. -/
  | overflow
  /-- What is no number is no integer. -/
  | notANumber
  /-- An integer has too many digits for a decimal numeral. -/
  | tooManyDigits
deriving DecidableEq, Repr

namespace Number

/-- The decimal numeral of an integer, unless it has too many digits. -/
def numeral (n : Int) : Except ConversionFault String :=
  if Numeral.maxDigits < (Nat.toDigits 10 n.natAbs).length then .error .tooManyDigits
  else .ok (Numeral.decimal n)

/-- A number as text. -/
def write : Number → Except ConversionFault String
  | int n => numeral n
  | double d => .ok d.write

/-- The integer part of a number. -/
def toInt : Number → Except ConversionFault Int
  | int n => .ok n
  | double (.finite negative m e) => .ok (Double.truncate negative m e)
  | double (.infinite _) => .error .overflow
  | double .nan => .error .notANumber

/-- The double nearest to a number. -/
def toDouble : Number → Except ConversionFault Double
  | int n =>
    match Double.ofInt n with
    | .infinite _ => .error .overflow
    | d => .ok d
  | double d => .ok d

/-- The opposite number. -/
def neg : Number → Number
  | int n => int (-n)
  | double d => double d.neg

/-- Whether a number is other than zero. -/
def isTrue : Number → Bool
  | int n => n ≠ 0
  | double (.finite _ m _) => m ≠ 0
  | double _ => true

/-- Whether a number equals an integer. -/
def equals (n : Int) : Number → Bool
  | int m => m = n
  | double (.finite negative m e) =>
    let t := Double.truncate negative m e
    t = n && (0 ≤ e || m % Nat.pow 2 (-e).toNat = 0)
  | double _ => false

end Number

end QueryScribe
