import QueryScribe.Number.Double

/-!
# The shortest decimal of a double

Of all decimals that round to a double the one with the fewest digits is written, and of those the
nearest to it; of two that are equally near, the one with an even last digit. For each number of
digits the two neighbours of the value on that decimal grid are tried.
-/

namespace QueryScribe.Double

/-- The decimals that round to a positive double, scaled to integers: a value `x / unit` is in the
range if `low ≤ x ≤ high`, or strictly so if the ends are excluded. -/
structure Neighbourhood where
  low : Nat
  value : Nat
  high : Nat
  unit : Nat
  closed : Bool

/-- The neighbourhood of `m * 2^e`. Below a power of two doubles are twice as dense. -/
def neighbourhood (m : Nat) (e : Int) : Neighbourhood :=
  let below := if m = Nat.pow 2 52 && minExponent < e then 1 else 2
  let scale := Nat.pow 2 (e - 2).toNat
  ⟨(4 * m - below) * scale, 4 * m * scale, (4 * m + 2) * scale, Nat.pow 2 (2 - e).toNat, m % 2 = 0⟩

/-- Whether `c * 10^k` is in a neighbourhood. -/
def Neighbourhood.holds (n : Neighbourhood) (c : Nat) (k : Int) : Bool :=
  let x := c * Nat.pow 10 k.toNat * n.unit
  let shift := Nat.pow 10 (-k).toNat
  if n.closed then n.low * shift ≤ x && x ≤ n.high * shift
  else n.low * shift < x && x < n.high * shift

/-- Of the two neighbours of the value on the grid of `10^k`, the nearer one in the neighbourhood,
or the even one if both are equally near. -/
def Neighbourhood.onGrid? (n : Neighbourhood) (k : Int) : Option Nat :=
  let value := n.value * Nat.pow 10 (-k).toNat
  let step := n.unit * Nat.pow 10 k.toNat
  let c := value / step
  let lower := n.holds c k
  let upper := n.holds (c + 1) k
  let twice := 2 * (value % step)
  let nearLower := twice < step || twice = step && c % 2 = 0
  if lower && (nearLower || !upper) then some c
  else if upper then some (c + 1)
  else none

/-- The exponent of ten of the first digit of a value. -/
def Neighbourhood.magnitude (n : Neighbourhood) (log2 : Int) : Int :=
  let p := log2 * 30103 / 100000
  if n.unit * Nat.pow 10 (p + 1).toNat ≤ n.value * Nat.pow 10 (-(p + 1)).toNat then p + 1 else p

/-- A number without its trailing zeros, and the exponent of ten that takes them up. -/
def dropZeros : Nat → Nat → Int → Nat × Int
  | 0, c, k => (c, k)
  | fuel + 1, c, k => if c % 10 = 0 then dropZeros fuel (c / 10) (k + 1) else (c, k)

/-- The shortest decimal `c * 10^k` of `m * 2^e`, for `0 < m`. Seventeen digits always suffice. -/
def shortest (m : Nat) (e : Int) : Nat × Int :=
  let n := neighbourhood m e
  let p := n.magnitude (m.log2 + e)
  let found := (List.range 17).findSome? fun (i : Nat) =>
    (n.onGrid? (p - i)).map fun c => (c, p - (i : Int))
  match found with
  | some (c, k) => dropZeros 17 c k
  | none => (0, 0)

/-- At least two digits of an exponent. -/
def exponentDigits (n : Nat) : List Char :=
  let ds := Nat.toDigits 10 n
  if ds.length < 2 then '0' :: ds else ds

/-- Digits times a power of ten: with a point if the first digit stands for `10^(-4)` up to
`10^15`, else with an exponent of at least two digits. A whole number keeps one zero after the
point. -/
def layOut (digits : List Char) (k : Int) : List Char :=
  let point := digits.length + k
  let adjusted := point - 1
  if -4 ≤ adjusted && adjusted < 16 then
    if 0 ≤ k then digits ++ List.replicate k.toNat '0' ++ ['.', '0']
    else if 0 < point then digits.take point.toNat ++ '.' :: digits.drop point.toNat
    else '0' :: '.' :: (List.replicate (-point).toNat '0' ++ digits)
  else
    let mantissa := match digits with
      | d :: e :: ds => d :: '.' :: e :: ds
      | ds => ds
    mantissa ++ 'e' :: (if adjusted < 0 then '-' else '+') :: exponentDigits adjusted.natAbs

/-- A double as text. -/
def write : Double → String
  | nan => "nan"
  | infinite negative => if negative then "-inf" else "inf"
  | finite negative m e =>
    let body :=
      if m = 0 then ['0', '.', '0']
      else
        let (c, k) := shortest m e
        layOut (Nat.toDigits 10 c) k
    String.ofList (if negative then '-' :: body else body)

end QueryScribe.Double
