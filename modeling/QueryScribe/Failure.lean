import QueryScribe.Calendar
import QueryScribe.Number.Basic
import QueryScribe.Syntax.Token
import QueryScribe.Types.Slot

/-!
# Failures

A compile that fails gives a cause and, where one is known, a place. The kind of a failure and its
text follow from the cause. Every failure ends the compile: there is no partial output.
-/

namespace QueryScribe

/-- The kinds of failure. -/
inductive FailureKind
  | argument | member | reference | notCallable | evaluation | internal | unimplemented
  | malformed | other
deriving DecidableEq, Repr

namespace FailureKind

/-- The name of a kind. -/
def label : FailureKind → String
  | argument => "ArgumentError" | member => "AttributeError" | reference => "ReferenceError"
  | notCallable => "TypeError" | evaluation => "RuntimeError" | internal => "InternalError"
  | unimplemented => "UnimplementedError" | malformed => "SyntaxError" | other => "TranspileError"

/-- The code of a kind, by which callers tell kinds apart. -/
def code : FailureKind → String
  | argument => "E_ARGUMENT" | member => "E_ATTRIBUTE" | reference => "E_REFERENCE"
  | notCallable => "E_TYPE" | evaluation => "E_RUNTIME" | internal => "E_INTERNAL"
  | unimplemented => "E_UNIMPLEMENTED" | malformed => "E_SYNTAX" | other => "E_TRANSPILE"

end FailureKind

/-- A line or column in a text, or none. -/
def showPosition : Option Int → String
  | some n => Numeral.decimal n
  | none => "None"

/-- A failure as it is shown: the place comes first if it has a line that counts. -/
def showFailure (line column : Option Int) (text : String) : String :=
  match line with
  | some n =>
    if 0 ≤ n then showPosition line ++ ":" ++ showPosition column ++ ": " ++ text else text
  | none => text

/-- Syntax that is read but not written. -/
inductive Construct
  | assignment
  | comprehension
  | keywordArgument
  | indexing
  | binary
  | other (label : String)
deriving DecidableEq, Repr

/-- Why a numeric literal has no value. -/
inductive NumeralFault
  | noInteger (base : Nat) (text : String)
  | noDouble (text : String)
deriving DecidableEq, Repr

/-- Why a text cannot be turned into bytes: the surrogates in it stand from `first` to `last`. -/
structure Unencodable where
  codePoint : Nat
  first : Nat
  last : Nat
deriving DecidableEq, Repr

/-- Why a compile fails. -/
inductive Cause
  -- reading the source
  | unexpectedToken (shown : String)
  | unexpectedCharacter (c : Char)
  | indentation (found expected : Nat)
  -- arguments of calls
  | noArguments (callee : String)
  | tooManyArguments (callee : String) (expected actual : Nat)
  | tooFewArguments (callee : String)
  | argumentType (callee : String) (accepted : List String) (actual : String) (index : Nat)
  | datetimeCount (actual : Nat)
  | datetimeArguments
  | sourceLength (actual : Nat) (limit : Int)
  -- names and members
  | unknownMember (member owner : String)
  | undefinedSymbol (name : String)
  | notCallable (name : String)
  -- values of literals
  | numericLiteral (text : String) (fault : NumeralFault)
  | dateComponents (count : Nat)
  | date (fault : MomentFault)
  | objectId (text : String)
  | int64Text (text : String)
  | int64Range (value : String)
  | decimal128 (text : String)
  | binarySubtype (subtype : String)
  | binaryPayload (fault : Unencodable)
  | regexFlags
  | regexFlag (c : Char)
  | stringExpected (label : String)
  | stringLiteral
  | numberExpected (text : String)
  -- the rest
  | untypedNode (label : String)
  | unimplemented (construct : Construct)
deriving DecidableEq, Repr

/-- The text of a fault of a numeral. -/
def NumeralFault.message : NumeralFault → String
  | noInteger base text =>
    "invalid literal for int() with base " ++ Numeral.decimal base ++ ": " ++
      String.ofList ((Text.quoted text).toList.take 200)
  | noDouble text => "could not convert string to float: " ++ Text.quoted text

/-- The text of a fault of a moment. -/
def MomentFault.message : MomentFault → String
  | componentTooLarge => "signed integer is greater than maximum"
  | componentTooSmall => "signed integer is less than minimum"
  | componentTooWide => "Python int too large to convert to C long"
  | notAnInteger => "'float' object cannot be interpreted as an integer"
  | year y => "year " ++ Numeral.decimal y ++ " is out of range"
  | month => "month must be in 1..12"
  | day => "day is out of range for month"
  | hour => "hour must be in 0..23"
  | minute => "minute must be in 0..59"
  | second => "second must be in 0..59"
  | microsecond => "microsecond must be in 0..999999"

/-- The text of a payload that cannot be turned into bytes. -/
def Unencodable.message (u : Unencodable) : String :=
  let codec := "'utf-8' codec can't encode character"
  if u.first = u.last then
    codec ++ " '" ++ String.ofList (Text.escapeNumber u.codePoint) ++ "' in position " ++
      Numeral.decimal u.first ++ ": surrogates not allowed"
  else
    codec ++ "s in position " ++ Numeral.decimal u.first ++ "-" ++ Numeral.decimal u.last ++
      ": surrogates not allowed"

/-- The text for syntax that is not written. -/
def Construct.message : Construct → String
  | assignment => "Assignment not yet implemented"
  | comprehension => "Comprehensions not yet implemented"
  | keywordArgument => "Keyword arguments not yet implemented"
  | indexing => "Indexing not currently supported"
  | binary => "Binary type not supported"
  | other label => "'" ++ label ++ "' not yet implemented"

namespace Cause

/-- The kind of a failure. -/
def kind : Cause → FailureKind
  | unexpectedToken _ | unexpectedCharacter _ | indentation _ _ => .malformed
  | noArguments _ | tooManyArguments _ _ _ | tooFewArguments _ | argumentType _ _ _ _
  | datetimeCount _ | datetimeArguments | sourceLength _ _ => .argument
  | unknownMember _ _ => .member
  | undefinedSymbol _ => .reference
  | notCallable _ => .notCallable
  | numericLiteral _ _ | dateComponents _ | date _ | objectId _ | int64Text _ | int64Range _
  | decimal128 _ | binarySubtype _ | binaryPayload _ | regexFlags | regexFlag _
  | stringExpected _ | stringLiteral | numberExpected _ => .evaluation
  | untypedNode _ => .internal
  | unimplemented _ => .unimplemented

/-- The text of a failure. -/
def message : Cause → String
  | unexpectedToken shown => "unexpected token " ++ shown
  | unexpectedCharacter c => "unexpected character " ++ Text.quoted (String.ofList [c])
  | indentation found expected =>
    "inconsistent indentation: Unexpected dedent to column " ++ Numeral.decimal found ++
      ". Expected dedent to " ++ Numeral.decimal expected
  | noArguments callee =>
    "Argument count mismatch: '" ++ callee ++ "' requires at least one argument"
  | tooManyArguments callee expected actual =>
    "Argument count mismatch: '" ++ callee ++ "' expects " ++ Numeral.decimal expected ++
      " args and got " ++ Numeral.decimal actual
  | tooFewArguments callee =>
    "Argument count mismatch: too few arguments passed to '" ++ callee ++ "'"
  | argumentType callee accepted actual index =>
    "Argument type mismatch: '" ++ callee ++ "' expects types " ++ Text.quotedList accepted ++
      " but got type " ++ actual ++ " for argument at index " ++ Numeral.decimal index
  | datetimeCount actual =>
    "Wrong number of arguments to datetime: needs at least 3, got " ++ Numeral.decimal actual
  | datetimeArguments =>
    "Invalid argument to datetime: requires either no args or up to 7 numbers"
  | sourceLength actual limit =>
    "source is " ++ Numeral.decimal actual ++ " characters long; the limit is " ++
      Numeral.decimal limit
  | unknownMember member owner => "'" ++ member ++ "' not an attribute of " ++ owner
  | undefinedSymbol name => "Symbol '" ++ name ++ "' is undefined"
  | notCallable name => name ++ " is not callable"
  | numericLiteral text fault => "Invalid numeric literal '" ++ text ++ "': " ++ fault.message
  | dateComponents count =>
    "datetime needs between 3 and 7 components, got " ++ Numeral.decimal count
  | date fault => "Unable to construct date: " ++ fault.message
  | objectId text => "ObjectId requires a 24 character hex string, got '" ++ text ++ "'"
  | int64Text text => "Int64 requires an integer string, got '" ++ text ++ "'"
  | int64Range value => "Int64 value " ++ value ++ " is out of range"
  | decimal128 text => "Decimal128 requires a numeric string, got '" ++ text ++ "'"
  | binarySubtype subtype => "Unsupported binary subtype " ++ subtype
  | binaryPayload fault => "Binary payload is not encodable: " ++ fault.message
  | regexFlags => "Regex flags must be re flag constants joined with |"
  | regexFlag c => "Invalid flag '" ++ String.ofList [c] ++ "' passed to Regex"
  | stringExpected label => "expected a string literal, got '" ++ label ++ "'"
  | stringLiteral => "Unable to evaluate string literal"
  | numberExpected text => "Unable to convert argument to a number: " ++ text
  | untypedNode label => "no type recorded for node '" ++ label ++ "'"
  | unimplemented construct => construct.message

end Cause

/-- A cause and where it lies. -/
structure Failure where
  cause : Cause
  place : Option Place := none
deriving DecidableEq, Repr

namespace Failure

/-- The kind of a failure. -/
def kind (f : Failure) : FailureKind := f.cause.kind

/-- A failure as it is shown. -/
def text (f : Failure) : String :=
  showFailure (f.place.map (·.line)) (f.place.map (·.column)) f.cause.message

end Failure

/-- Why writing stops. -/
inductive Fault
  /-- A failure of the source. -/
  | failure (f : Failure)
  /-- A number or a text that cannot be converted. -/
  | conversion (f : ConversionFault)
  /-- A name under which no type is known. -/
  | unknownType (name : String)
  /-- A node without the children that its rule gives it. No tree that was read has one. -/
  | malformed (label : String)
deriving DecidableEq, Repr

namespace Fault

/-- A failure without a place. -/
@[simp]
def ofCause (cause : Cause) : Fault := .failure ⟨cause, none⟩

/-- A failure without a place that shows a number, if the number can be shown. -/
def showing (n : Number) (cause : String → Cause) : Fault :=
  match n.write with
  | .ok text => ofCause (cause text)
  | .error f => .conversion f

end Fault

end QueryScribe
