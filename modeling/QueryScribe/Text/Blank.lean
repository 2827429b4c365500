/-!
# Blank characters and line breaks

The characters that may be trimmed from the ends of a text: the separators of Unicode and the
control characters that act as such. Besides the usual six these are the four information
separators, the next-line character and the typographic spaces.
-/

namespace QueryScribe.Text

/-- Ranges of blank characters, in ascending order. -/
def blankRanges : List (Nat × Nat) :=
  [(0x09, 0x0d), (0x1c, 0x20), (0x85, 0x85), (0xa0, 0xa0), (0x1680, 0x1680), (0x2000, 0x200a),
   (0x2028, 0x2029), (0x202f, 0x202f), (0x205f, 0x205f), (0x3000, 0x3000)]

/-- Membership of a code point in a list of closed ranges. -/
def within (ranges : List (Nat × Nat)) (n : Nat) : Bool :=
  ranges.any fun (lo, hi) => lo ≤ n && n ≤ hi

/-- Membership of a code point in runs: the numbers of code points that are left out and taken, in
turn. Large tables are given so. -/
def inRuns : List Nat → Nat → Bool
  | out :: taken :: rest, n => out ≤ n && (n < out + taken || inRuns rest (n - (out + taken)))
  | _, _ => false

/-- A character that trimming removes. -/
def isBlank (c : Char) : Bool := within blankRanges c.toNat

/-- A blank of the narrow kind: a space or one of the five control characters after backspace. -/
def isNarrowBlank (c : Char) : Bool := c == ' ' || (9 ≤ c.toNat && c.toNat ≤ 13)

/-- The text without the characters in `p` at its two ends. -/
def trimBy (p : Char → Bool) (cs : List Char) : List Char :=
  ((cs.dropWhile p).reverse.dropWhile p).reverse

/-- The text without blanks at its two ends. -/
def trim (cs : List Char) : List Char := trimBy isBlank cs

/-- The text with every kind of line break as a line feed. -/
def unifyBreaks : List Char → List Char
  | [] => []
  | '\r' :: '\n' :: cs => '\n' :: unifyBreaks cs
  | c :: cs => (if c = '\r' then '\n' else c) :: unifyBreaks cs

end QueryScribe.Text
