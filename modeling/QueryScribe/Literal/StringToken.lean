import QueryScribe.Literal.Quoting
import QueryScribe.Text.Blank

/-!
# String tokens

A string token has letters that mark its kind, a quote or three of them, and a body. The body of a
token is its text between the quotes with all escapes left in place, those of a raw token doubled so
that it reads like any other body. The value of a token is the text that it denotes, as numbers of
characters, among which an escape may put half of a surrogate pair; byte and format strings denote none.
-/

namespace QueryScribe

/-- The characters that an escape may call by their names. A name is made of letters, digits, blanks
and hyphens. -/
structure CharacterNames where
  find? : List Char → Option Char
  isPlain : ∀ {name c}, find? name = some c →
    ∀ d ∈ name, d.isAlphanum || d = ' ' || d = '-'

/-- No names at all. -/
instance : Inhabited CharacterNames := ⟨⟨fun _ => none, by simp⟩⟩

namespace StringToken

/-- The letters that may stand before the quote. -/
def isMark (c : Char) : Bool :=
  c.toLower = 'r' || c.toLower = 'u' || c.toLower = 'b' || c.toLower = 'f'

/-- The quotes, three before one. -/
def quotes : List (List Char) :=
  [['\'', '\'', '\''], ['"', '"', '"'], ['\''], ['"']]

/-- The text before a last part. -/
def dropEnd? (last cs : List Char) : Option (List Char) :=
  if last.isSuffixOf cs then some (cs.take (cs.length - last.length)) else none

/-- The text before a closing quote, which may have a line break after it. -/
def beforeQuote? (quote cs : List Char) : Option (List Char) :=
  dropEnd? quote cs <|> dropEnd? (quote ++ ['\n']) cs

/-- The body of a token. What is no token is its own body. -/
def body (cs : List Char) : List Char :=
  let mark := cs.takeWhile isMark
  let rest := cs.dropWhile isMark
  let found := if 2 < mark.length then none else
    quotes.findSome? fun quote =>
      if quote.isPrefixOf rest then beforeQuote? quote (rest.drop quote.length) else none
  match found with
  | none => cs
  | some body =>
    if mark.any (fun c => c.toLower = 'r') then Quoting.doubleBackslashes body else body

/-- The text without a quote, and the letters before it, at its start. -/
def dropOpening (cs : List Char) : List Char :=
  let mark := cs.takeWhile isMark
  let rest := cs.dropWhile isMark
  if 2 < mark.length then cs
  else
    match quotes.find? (·.isPrefixOf rest) with
    | some quote => rest.drop quote.length
    | none => cs

/-- The text without a quote at its end or before a line break at its end. -/
def dropClosing (cs : List Char) : List Char :=
  let (core, ending) := match dropEnd? ['\n'] cs with
    | some core => (core, ['\n'])
    | none => (cs, [])
  match quotes.findSome? fun quote => dropEnd? quote core with
  | some core => core ++ ending
  | none => cs

/-- The text without the quotes around it. -/
def removeQuotes (cs : List Char) : List Char := dropClosing (dropOpening cs)

/-- The value of a hexadecimal digit. -/
def hexValue? (c : Char) : Option Nat :=
  if '0' ≤ c && c ≤ '9' then some (c.toNat - '0'.toNat)
  else if 'a' ≤ c && c ≤ 'f' then some (c.toNat - 'a'.toNat + 10)
  else if 'A' ≤ c && c ≤ 'F' then some (c.toNat - 'A'.toNat + 10)
  else none

/-- The value of exactly `width` hexadecimal digits. -/
def hexNumber? : (width value : Nat) → List Char → Option Nat
  | 0, value, _ => some value
  | _ + 1, _, [] => none
  | width + 1, value, c :: cs => (hexValue? c).bind fun d => hexNumber? width (value * 16 + d) cs

/-- An octal digit. -/
def isOctal (c : Char) : Bool := '0' ≤ c && c ≤ '7'

/-- The value of octal digits. -/
def octalNumber (cs : List Char) : Nat := cs.foldl (fun n c => n * 8 + (c.toNat - '0'.toNat)) 0

/-- The number of a character or of half of a surrogate pair, if it is one. -/
def ofNumber? (n : Nat) : Option Nat := if n ≤ 0x10ffff then some n else none

/-- What an escape by name denotes, and its length after the backslash: a name between braces follows
the letter. -/
def named? (names : CharacterNames) : List Char → Option (List Nat × Nat)
  | '\x7b' :: cs =>
    let name := cs.takeWhile (· ≠ '\x7d')
    if name.isEmpty || name.length = cs.length then none
    else (names.find? name).map fun d => ([d.toNat], name.length + 3)
  | _ => none

/-- What an escape denotes, and its length after the backslash. Unknown escapes denote
themselves. -/
def escape? (names : CharacterNames) : List Char → Option (List Nat × Nat)
  | [] => none
  | c :: cs =>
    let one (d : Char) : Option (List Nat × Nat) := some ([d.toNat], 1)
    let number (width : Nat) : Option (List Nat × Nat) := do
      let n ← ofNumber? (← hexNumber? width 0 cs)
      return ([n], width + 1)
    match c with
    | '\n' => some ([], 1)
    | '\\' | '\'' | '"' => one c
    | 'a' => one '\x07'
    | 'b' => one '\x08'
    | 'f' => one '\x0c'
    | 'n' => one '\n'
    | 'r' => one '\r'
    | 't' => one '\t'
    | 'v' => one '\x0b'
    | 'x' => number 2
    | 'u' => number 4
    | 'U' => number 8
    | 'N' => named? names cs
    | _ =>
      if isOctal c then
        let digits := (c :: cs).take 3 |>.takeWhile isOctal
        (ofNumber? (octalNumber digits)).map fun n => ([n], digits.length)
      else some (['\\'.toNat, c.toNat], 1)

/-- The text that a body denotes; `skip` characters of it have been read already. -/
def decode? (names : CharacterNames) : (skip : Nat) → List Char → Option (List Nat)
  | _, [] => some []
  | skip + 1, _ :: cs => decode? names skip cs
  | 0, '\\' :: cs =>
    (escape? names cs).bind fun (front, length) => (decode? names length cs).map (front ++ ·)
  | 0, c :: cs => (decode? names 0 cs).map (c.toNat :: ·)

/-- What stands before the first unescaped quote and after it. A single quote does not reach over a
line break that no backslash stands before. -/
def splitAtQuote? (quote : List Char) : List Char → Option (List Char × List Char)
  | [] => none
  | '\\' :: c :: cs => (splitAtQuote? quote cs).map fun (front, rest) => ('\\' :: c :: front, rest)
  | c :: cs =>
    if quote.isPrefixOf (c :: cs) then some ([], (c :: cs).drop quote.length)
    else if c = '\n' && quote.length = 1 then none
    else (splitAtQuote? quote cs).map fun (front, rest) => (c :: front, rest)

/-- The value of one token. -/
def value? (names : CharacterNames) (cs : List Char) : Option (List Nat) := do
  if cs.contains '\x00' then none
  let cs := Text.unifyBreaks cs
  let mark := cs.takeWhile isMark
  let rest := cs.dropWhile isMark
  let raw ← match mark with
    | [] => some false
    | [c] => if c.toLower = 'r' then some true else if c.toLower = 'u' then some false else none
    | _ => none
  let quote ← quotes.find? (·.isPrefixOf rest)
  let (body, after) ← splitAtQuote? quote (rest.drop quote.length)
  if after.isEmpty then if raw then some (body.map Char.toNat) else decode? names 0 body else none

/-- The value of consecutive tokens. -/
def valueOf? (names : CharacterNames) (tokens : List String) : Option (List Nat) :=
  (tokens.mapM fun t => value? names t.toList).map List.flatten

/-- A value as text. Half of a surrogate pair is no character: the replacement character stands for
it. -/
def toText (value : List Nat) : String :=
  String.ofList (value.map fun n => if n.isValidChar then Char.ofNat n else '\ufffd')

end StringToken

end QueryScribe
