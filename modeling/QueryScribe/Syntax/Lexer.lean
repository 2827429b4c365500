import QueryScribe.Syntax.Token
import QueryScribe.Text.Word

/-!
# Lexemes

Which terminal starts at a place depends on what the reader can accept there: of the acceptable
terminals the first that matches is taken, numbers and strings before words, words before signs. A
scanner gives the length of its lexeme.

Where names are acceptable a word is read as a whole, and is a keyword only if that keyword is
acceptable. Where they are not, a keyword is read even if letters follow it.
-/

namespace QueryScribe.Lexer

open Text

/-- The length of the longest front part made of characters in `p`. -/
def run (p : Char → Bool) (cs : List Char) : Nat := (cs.takeWhile p).length

/-- A digit of any script or an underscore. -/
def isDigitOrUnderscore (c : Char) : Bool := isDigit c || c == '_'

/-- An exponent: its mark, an optional sign and digits; zero if there is none. -/
def exponent : List Char → Nat
  | [] => 0
  | e :: cs =>
    if e == 'e' || e == 'E' then
      let sign := match cs with
        | c :: _ => if c == '+' || c == '-' then 1 else 0
        | [] => 0
      let digits := run isDigit (cs.drop sign)
      if digits = 0 then 0 else 1 + sign + digits
    else 0

/-- A number with a point or an exponent. -/
def float? (cs : List Char) : Option Nat :=
  let whole := run isDigit cs
  match cs.drop whole with
  | '.' :: rest =>
    let fraction := run isDigitOrUnderscore rest
    if whole = 0 && fraction = 0 then none
    else
      let length := whole + 1 + fraction
      some (length + exponent (cs.drop length))
  | rest =>
    let power := exponent rest
    if whole = 0 || power = 0 then none else some (whole + power)

/-- Digits, or a number with a point or an exponent, before a `j`. -/
def imag? (cs : List Char) : Option Nat :=
  let marked (n : Nat) : Option Nat := match cs.drop n with
    | c :: _ => if c == 'j' || c == 'J' then some (n + 1) else none
    | [] => none
  let whole := run isDigit cs
  (if whole = 0 then none else marked whole) <|> (float? cs).bind marked

/-- A zero, one of two letters for the base, and digits of it. -/
def based? (lower upper : Char) (digit : Char → Bool) : List Char → Option Nat
  | '0' :: c :: cs => if c == lower || c == upper then some (2 + run digit cs) else none
  | _ => none

/-- A hexadecimal digit, where decimal digits may be of any script. -/
def isHexDigit (c : Char) : Bool :=
  isDigit c || ('a' ≤ c && c ≤ 'f') || ('A' ≤ c && c ≤ 'F')

/-- A decimal integer: a lone zero, or digits that start with another one. -/
def decimal? : List Char → Option Nat
  | '0' :: _ => some 1
  | c :: cs => if '1' ≤ c && c ≤ '9' then some (1 + run isDigitOrUnderscore cs) else none
  | [] => none

/-- The two quotes. -/
def isQuote (c : Char) : Bool := c == '"' || c == '\''

/-- The length of the letters before the quote of a string. -/
def stringMark : List Char → Option Nat
  | [] => none
  | c :: cs =>
    let kind (d : Char) : Bool := d.toLower == 'u' || d.toLower == 'b' || d.toLower == 'f'
    let raw (d : Char) : Bool := d.toLower == 'r'
    if isQuote c then some 0
    else match cs with
      | [] => none
      | d :: ds =>
        if isQuote d then if kind c || raw c then some 1 else none
        else match ds with
          | [] => none
          | e :: _ =>
            if isQuote e && ((kind c && raw d) || (raw c && kind d)) then some 2 else none

/-- Up to and with the first quote that no backslash escapes, on one line. -/
def closeShort (quote : Char) : List Char → Option Nat
  | [] => none
  | '\n' :: _ => none
  | '\\' :: '\n' :: _ => none
  | '\\' :: _ :: cs => (closeShort quote cs).map (· + 2)
  | c :: cs => if c == quote then some 1 else (closeShort quote cs).map (· + 1)

/-- Up to and with the first three quotes of which no backslash escapes the first. -/
def closeLong (quote : Char) : List Char → Option Nat
  | [] => none
  | '\\' :: _ :: cs => (closeLong quote cs).map (· + 2)
  | c :: cs =>
    if [quote, quote, quote].isPrefixOf (c :: cs) then some 3
    else (closeLong quote cs).map (· + 1)

/-- A string in single or double quotes. -/
def string? (cs : List Char) : Option Nat :=
  (stringMark cs).bind fun mark =>
    match cs.drop mark with
    | q :: rest =>
      if [q, q].isPrefixOf rest then none else (closeShort q rest).map (· + (mark + 1))
    | [] => none

/-- A string in three quotes, which may hold line breaks. -/
def longString? (cs : List Char) : Option Nat :=
  (stringMark cs).bind fun mark =>
    match cs.drop mark with
    | q :: rest =>
      if [q, q].isPrefixOf rest then (closeLong q (rest.drop 2)).map (· + (mark + 3)) else none
    | [] => none

/-- What a line break has been followed by so far. -/
inductive LineEnd
  | nothing | blanks | comment

/-- Line breaks with the blanks after them, and comments. -/
def lineEnd : LineEnd → List Char → Nat
  | _, '\n' :: cs => 1 + lineEnd .blanks cs
  | .comment, _ :: cs => 1 + lineEnd .comment cs
  | _, '\r' :: '\n' :: cs => 2 + lineEnd .blanks cs
  | _, '#' :: cs => 1 + lineEnd .comment cs
  | .blanks, c :: cs => if c == ' ' || c == '\t' then 1 + lineEnd .blanks cs else 0
  | _, _ => 0

/-- At least one line break or comment. -/
def newline? (cs : List Char) : Option Nat :=
  let length := lineEnd .nothing cs
  if length = 0 then none else some length

/-- The blanks that may stand between tokens of a line. -/
def isGap (c : Char) : Bool := c == ' ' || c == '\t' || c == '\x0c'

/-- Blanks between tokens. -/
def gap? (cs : List Char) : Option Nat :=
  let length := run isGap cs
  if length = 0 then none else some length

/-- A backslash that joins a line to the next one. -/
def continuation? : List Char → Option Nat
  | '\\' :: cs =>
    let blanks := run isGap cs
    match cs.drop blanks with
    | '\n' :: _ => some (blanks + 2)
    | '\r' :: '\n' :: _ => some (blanks + 3)
    | _ => none
  | _ => none

/-- A word. -/
def word? : List Char → Option Nat
  | c :: cs => if isWordStart c then some (1 + run isWord cs) else none
  | [] => none

/-- The operators that assign what they compute. -/
def assignments : List String :=
  ["+=", "-=", "**=", "*=", "@=", "//=", "/=", "%=", "&=", "|=", "^=", "<<=", ">>="]

/-- One of several texts. -/
def oneOf? (texts : List String) (cs : List Char) : Option Nat :=
  (texts.find? fun text => text.toList.isPrefixOf cs).map (·.length)

/-- The scanners of classes of lexemes, in the order in which they are tried. -/
def classes : List (Terminal × (List Char → Option Nat)) :=
  [(.imagNumber, imag?), (.floatNumber, float?),
   (.hexNumber, based? 'x' 'X' fun c => isHexDigit c || c == '_'),
   (.octNumber, based? 'o' 'O' fun c => ('0' ≤ c && c ≤ '7') || c == '_'),
   (.binNumber, based? 'b' 'B' fun c => c == '0' || c == '1' || c == '_'), (.string, string?),
   (.longString, longString?), (.newline, newline?), (.decNumber, decimal?)]

/-- A stretch of text that is read at once. -/
structure Lexeme where
  /-- The terminal, unless the stretch is passed over. -/
  kind : Option Terminal
  length : Nat

/-- The lexeme at the start of a text, for a reader that accepts these terminals. A line break is
always acceptable. -/
def scan (accepts : Terminal → Bool) (cs : List Char) : Option Lexeme :=
  (classes.findSome? fun (t, length?) =>
    if t == .newline || accepts t then (length? cs).map (⟨some t, ·⟩) else none) <|>
  (continuation? cs).map (⟨none, ·⟩) <|>
  (if accepts .name then (word? cs).map fun n =>
    ⟨some ((Terminal.ofWord? accepts (String.ofList (cs.take n))).getD .name), n⟩ else none) <|>
  (gap? cs).map (⟨none, ·⟩) <|>
  (if accepts .augAssign then (oneOf? assignments cs).map (⟨some .augAssign, ·⟩) else none) <|>
  (Terminal.spelled.find? fun (t, text) => accepts t && text.toList.isPrefixOf cs).map
    fun (t, text) => ⟨some t, text.length⟩

end QueryScribe.Lexer
