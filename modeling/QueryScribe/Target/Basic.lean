import QueryScribe.Failure
import QueryScribe.Literal.Quoting
import QueryScribe.Target.Helper

/-!
# Targets

A target says how each part of an expression is written. What it leaves out is written in a default
way, close to the source.
-/

namespace QueryScribe

/-- Operators that ask whether two values are equal, or are one and the same. -/
inductive Equality
  | equal | unequal | same | distinct
deriving DecidableEq, Repr

/-- Operators that ask whether a value is among others. -/
inductive Membership
  | among | notAmong
deriving DecidableEq, Repr

/-- The operator without blanks. -/
def Equality.spelling : Equality → String
  | equal => "==" | unequal => "!=" | same => "is" | distinct => "isnot"

/-- The operator with a spelling. -/
def Equality.ofSpelling? (s : String) : Option Equality :=
  [equal, unequal, same, distinct].find? (·.spelling == s)

/-- The operator without blanks. -/
def Membership.spelling : Membership → String
  | among => "in" | notAmong => "notin"

/-- The operator with a spelling. -/
def Membership.ofSpelling? (s : String) : Option Membership :=
  [among, notAmong].find? (·.spelling == s)

/-- How a target writes calls, each from what is called and from its operands. Calls without a form
of their own list their arguments after what is called. -/
structure CallForms where
  /-- A conversion to a number: nothing, or an argument and the type it was written as. -/
  number : ValueType → Option (Option (String × ValueType) → String) := fun _ => none
  /-- Code, and the document of its variables if it has one. -/
  code : Option (String → Option String → String) := none
  /-- An object identifier, by default a new one. -/
  objectId : Option (String → Option String → String) := none
  /-- An object identifier from a date, or from a number that stands for one. -/
  fromDatetime : Option (String → String → Bool → String) := none
  /-- A decimal. -/
  decimal128 : Option (String → String → String) := none
  /-- A date, by default the present. -/
  datetime : Option (String → Option Moment → String) := none
  /-- A regular expression: its pattern as it is written, the text of the pattern, and its
  options. -/
  compile : Option (String → (written pattern flags : String) → String) := none
  /-- Any other call with its arguments. -/
  other : ValueType → Option (String → List String → String) := fun _ => none

/-- How a target writes expressions. -/
structure Target where
  name : String
  /-- A literal of a type, from its text. -/
  literal : ValueType → Option (String → Except Fault String) := fun _ => none
  /-- A string, from its body. -/
  string : Option (String → String) := none
  /-- A document, from its keys and values. -/
  document : Option (List (String × String) → String) := none
  /-- An array, from its items. -/
  array : Option (List String → String) := none
  /-- The name of a type that a source names. -/
  symbol : ValueType → Option String := fun _ => none
  /-- A member, from its owner and its name. -/
  member : ValueType → Option (String → String → String) := fun _ => none
  /-- The calls of types. -/
  calls : CallForms := {}
  /-- The call of a constructor. -/
  construct : ValueType → String → String := fun _ call => call
  equality : Equality → String → String → String
  membership : Membership → String → String → String
  conjunction : List String → String := " and ".intercalate
  disjunction : List String → String := " or ".intercalate
  negation : String → String := ("not " ++ ·)
  power : String → String → String := fun base exponent => base ++ " ** " ++ exponent
  floorDivision : String → String → String := fun a b => a ++ " // " ++ b
  /-- What ends a statement. -/
  endOfStatement : String := ""
  /-- What ends a program. -/
  endOfProgram : String := ""
  /-- The options of a compiled regular expression. -/
  regexFlags : List (Char × String) := []
  /-- The options of a regular expression of the database. -/
  bsonRegexFlags : List (Char × String) := []
  /-- The helpers that build queries, if the target has any. -/
  helpers : Option Helpers := none
  imports : ImportTable

/-- The options that a regular expression of the database may have. -/
def acceptedRegexFlags : List Char := "imxlsu".toList

namespace Target

/-- A string from its body, by default between single quotes. -/
def writeString (t : Target) (body : String) : String :=
  match t.string with
  | some write => write body
  | none => "'" ++ body ++ "'"

/-- A literal of a type, by default its own text. -/
def writeLiteral (t : Target) (type : ValueType) (text : String) : Except Fault String :=
  match type, t.string, t.literal type with
  | .string, some write, _ => .ok (write text)
  | _, _, some write => write text
  | _, _, none => .ok text

/-- A string from its value. -/
def writeValue (t : Target) (value : String) : String :=
  t.writeString (String.ofList (Quoting.doubleBackslashes value.toList))

/-- An array, by default its items between brackets. -/
def writeArray (t : Target) (items : List String) : String :=
  match t.array with
  | some write => write items
  | none => "[" ++ ", ".intercalate items ++ "]"

/-- A document, by default its entries between braces. -/
def writeDocument (t : Target) (entries : List (String × String)) : String :=
  match t.document with
  | some write => write entries
  | none => "\x7b" ++ ", ".intercalate (entries.map fun (k, v) => k ++ ": " ++ v) ++ "\x7d"

/-- A member of an owner, by default after a point. -/
def writeMember (t : Target) (type : ValueType) (owner name : String) : String :=
  match t.member type with
  | some write => write owner name
  | none => owner ++ "." ++ name

end Target

end QueryScribe
