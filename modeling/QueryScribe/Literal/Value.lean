import QueryScribe.Failure
import QueryScribe.Number.Decimal

/-!
# Values of literals

Some constructors need a value in one canonical text rather than the text of the source: numbers of
a given type, dates, object identifiers, 64-bit integers, decimals, options of regular expressions
and binary payloads.
-/

namespace QueryScribe.Literal

/-- Whether a text starts with a zero and a letter, in either case. -/
def startsWithMark (mark : Char) : List Char → Bool
  | '0' :: c :: _ => c.toLower = mark
  | _ => false

/-- The integer that a text denotes in a base. -/
def integerIn (base : Nat) (cs : List Char) : Except NumeralFault Number :=
  match Numeral.read? base cs with
  | some n => .ok (.int n)
  | none => .error (.noInteger base (String.ofList cs))

/-- The double that a text denotes. -/
def doubleOf (cs : List Char) : Except NumeralFault Number :=
  match Double.read? cs with
  | some d => .ok (.double d)
  | none => .error (.noDouble (String.ofList cs))

/-- The value of a numeric literal that was written as a type: octal and hexadecimal texts in their
base, decimals as doubles, anything else as an integer if it is one with not too many digits, and else
as a double. Underscores mean nothing. -/
def number (text : String) (type : ValueType) : Except Cause Number :=
  let cs := text.toList.filter (· ≠ '_')
  let value := match type with
    | .octal => integerIn 8 (if startsWithMark 'o' cs then cs.drop 2 else cs)
    | .hex => integerIn 16 cs
    | .decimal => doubleOf cs
    | _ =>
      if startsWithMark 'b' cs then integerIn 2 cs
      else match Numeral.readDecimal? cs with
        | some n => .ok (.int n)
        | none => doubleOf cs
  value.mapError (.numericLiteral text)

/-- A number as a literal of a numeric type. -/
def canonical (n : Number) (type : ValueType) : Except ConversionFault String :=
  match type with
  | .decimal => n.toDouble.map Double.write
  | .hex => n.toInt.map fun i => String.ofList (Numeral.write 16 i)
  | .octal => n.toInt.map fun i => String.ofList (Numeral.write 8 i)
  | _ => n.toInt.bind Number.numeral

/-- The moment of three to seven integers. -/
def moment (parts : List Int) : Except Cause Moment :=
  if 3 ≤ parts.length && parts.length ≤ 7 then (Moment.ofParts? parts).mapError .date
  else .error (.dateComponents parts.length)

/-- A component of a moment as an integer that fits. -/
def component : Number → Except Cause Int
  | .int n =>
    match Moment.componentFault? n with
    | some fault => .error (.date fault)
    | none => .ok n
  | .double _ => .error (.date .notAnInteger)

/-- The moment of three to seven numbers, all of which have to be integers. -/
def date (parts : List Number) : Except Cause Moment :=
  if 3 ≤ parts.length && parts.length ≤ 7 then (parts.mapM component).bind moment
  else .error (.dateComponents parts.length)

/-- The text, without a line break at its end. -/
def dropBreak (cs : List Char) : List Char :=
  match cs.reverse with
  | '\n' :: rest => rest.reverse
  | _ => cs

/-- A hexadecimal digit of ASCII. -/
def isHex (c : Char) : Bool := c.isDigit || ('a' ≤ c && c ≤ 'f') || ('A' ≤ c && c ≤ 'F')

/-- The canonical text of an object identifier: twenty-four hexadecimal digits, in lower case. A
line break after them is let through. -/
def objectId (text : String) : Except Cause String :=
  let digits := dropBreak text.toList
  if digits.length = 24 && digits.all isHex then
    .ok (String.ofList (text.toList.map Char.toLower))
  else .error (.objectId text)

/-- The integer part of a number, if it fits into 64 bits. -/
def int64 (n : Number) : Except Fault Int :=
  match n.toInt with
  | .error _ => .error (.showing n .int64Range)
  | .ok i => if -Int.pow 2 63 ≤ i && i < Int.pow 2 63 then .ok i
    else .error (.showing (.int i) .int64Range)

/-- The canonical numeral of a 64-bit integer given as text: blanks around it, a sign, digits of any
script, not too many, and underscores anywhere. -/
def int64Text (text : String) : Except Fault String :=
  let cs := (Text.trim text.toList).filter (· ≠ '_')
  let (_, digits) := Numeral.takeSign (dropBreak cs)
  if !digits.isEmpty && digits.all Text.isDigit then
    match Numeral.readDecimal? cs with
    | some n => (int64 (.int n)).map Numeral.decimal
    | none => .error (.conversion .tooManyDigits)
  else .error (.ofCause (.int64Text text))

/-- The canonical text of a decimal. -/
def decimal128 (text : String) : Except Cause String :=
  match Decimal.read? text.toList with
  | some d => .ok d.write
  | none => .error (.decimal128 text)

/-- The kinds of binary payload. -/
def binarySubtypes : List Int := [0, 1, 2, 3, 4, 5, 128]

/-- Code points that stand for half of a character. -/
def isSurrogate (n : Nat) : Bool := 0xd800 ≤ n && n ≤ 0xdfff

/-- The bytes of a code point. -/
def bytes (n : Nat) : List Nat :=
  if n < 0x80 then [n]
  else if n < 0x800 then [0xc0 + n / 64, 0x80 + n % 64]
  else if n < 0x10000 then [0xe0 + n / 4096, 0x80 + n / 64 % 64, 0x80 + n % 64]
  else [0xf0 + n / 262144, 0x80 + n / 4096 % 64, 0x80 + n / 64 % 64, 0x80 + n % 64]

/-- The bytes of a binary payload given as code points. -/
def binary (codePoints : List Nat) (subtype : Int) : Except Fault (List Nat) :=
  if !binarySubtypes.contains subtype then .error (.showing (.int subtype) .binarySubtype)
  else
    let front := codePoints.takeWhile (!isSurrogate ·)
    match codePoints.dropWhile (!isSurrogate ·) with
    | [] => .ok (codePoints.flatMap bytes)
    | n :: rest =>
      let length := 1 + (rest.takeWhile isSurrogate).length
      .error (.ofCause (.binaryPayload ⟨n, front.length, front.length + length - 1⟩))

/-- The options of a regular expression, each once, in the order in which they are first named. -/
def uniqueFlags : List (Option String) → List String → Except Cause (List String)
  | [], seen => .ok seen
  | none :: _, _ => .error .regexFlags
  | some flag :: flags, seen =>
    uniqueFlags flags (if seen.contains flag then seen else seen ++ [flag])

/-- The letters of the options of a regular expression. -/
def regexFlags (flags : List (Option String)) : Except Cause String :=
  (uniqueFlags flags []).map String.join

/-- What a flag is written as. Where some flags are accepted any other one is refused and those
missing from the table are kept; else those missing from it are dropped. -/
def writeFlag (table : List (Char × String)) (accepted : Option (List Char)) (c : Char) :
    Except Cause String :=
  match accepted with
  | some accepted =>
    if accepted.contains c then .ok ((table.lookup c).getD (String.ofList [c]))
    else .error (.regexFlag c)
  | none => .ok ((table.lookup c).getD "")

/-- Flags as a target writes them. -/
def writeFlags (flags : String) (table : List (Char × String))
    (accepted : Option (List Char) := none) : Except Cause String :=
  (flags.toList.mapM (writeFlag table accepted)).map String.join

end QueryScribe.Literal
