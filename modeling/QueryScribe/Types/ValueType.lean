/-!
# Types of values

Every expression has a type. The basic types, whose names start with an underscore, are those of
literals and documents; the others belong to the names that a source may use and to what their calls
give. The catalogue is fixed: a target only decides how a type is written.
-/

namespace QueryScribe

/-- The names of the options of a regular expression. Each option has a letter and one or two
names. -/
inductive RegexFlag
  | i | ignoreCase | m | multiLine | s | dotAll | x | verbose | u | unicode | a | ascii | l | locale
deriving DecidableEq, Repr

namespace RegexFlag

/-- All names, in the order of the catalogue. -/
def all : List RegexFlag :=
  [i, ignoreCase, m, multiLine, s, dotAll, x, verbose, u, unicode, a, ascii, l, locale]

/-- The name as a source spells it. -/
def label : RegexFlag → String
  | i => "I" | ignoreCase => "IGNORECASE" | m => "M" | multiLine => "MULTILINE" | s => "S"
  | dotAll => "DOTALL" | x => "X" | verbose => "VERBOSE" | u => "U" | unicode => "UNICODE"
  | a => "A" | ascii => "ASCII" | l => "L" | locale => "LOCALE"

/-- The letter of the option. -/
def letter : RegexFlag → Char
  | i | ignoreCase => 'i'
  | m | multiLine => 'm'
  | s | dotAll => 's'
  | x | verbose => 'x'
  | u | unicode => 'u'
  | a | ascii => 'a'
  | l | locale => 'l'

end RegexFlag

/-- The type of an expression. -/
inductive ValueType
  | integer | long | decimal | hex | octal | numeric | string | regex | array | object | null
  | undefined | bool | binary | date
  | codeClass | objectIdClass | fromDatetime | binaryClass | dbRefClass | floatFunction
  | intFunction | int64Class | minKeyClass | maxKeyClass | regexClass | timestampClass
  | decimal128Class | datetimeClass | reModule | compileFunction
  | regexFlag (flag : RegexFlag)
deriving DecidableEq, Repr

/-- Whether and how a type is called. -/
inductive Callable
  | none | constructor | function
deriving DecidableEq, Repr

namespace ValueType

/-- The name of a type. All regular expression options share one. -/
def name : ValueType → String
  | integer => "_integer" | long => "_long" | decimal => "_decimal" | hex => "_hex"
  | octal => "_octal" | numeric => "_numeric" | string => "_string" | regex => "_regex"
  | array => "_array" | object => "_object" | null => "_null" | undefined => "_undefined"
  | bool => "_bool" | binary => "_bin" | date => "Date"
  | codeClass => "Code" | objectIdClass => "ObjectId" | fromDatetime => "ObjectId.from_datetime"
  | binaryClass => "Binary" | dbRefClass => "DBRef" | floatFunction => "float"
  | intFunction => "int" | int64Class => "Int64" | minKeyClass => "MinKey"
  | maxKeyClass => "MaxKey" | regexClass => "Regex" | timestampClass => "Timestamp"
  | decimal128Class => "Decimal128" | datetimeClass => "datetime" | reModule => "re"
  | compileFunction => "re.compile" | regexFlag _ => "_regex_flag"

/-- The number under which the use of a type is recorded. -/
def code : ValueType → Nat
  | integer => 1 | long => 2 | decimal => 3 | hex => 4 | octal => 5 | numeric => 6 | string => 7
  | regex => 8 | array => 9 | object => 10 | null => 11 | undefined => 12 | bool => 13
  | binary => 14 | date => 200
  | codeClass => 100 | objectIdClass => 101 | fromDatetime => 101 | binaryClass => 102
  | dbRefClass => 103 | floatFunction => 104 | intFunction => 105 | int64Class => 106
  | minKeyClass => 107 | maxKeyClass => 108 | regexClass => 109 | timestampClass => 110
  | decimal128Class => 112 | datetimeClass => 200 | reModule => 8 | compileFunction => 8
  | regexFlag _ => 8

/-- Whether and how a type is called. -/
def callable : ValueType → Callable
  | codeClass | objectIdClass | binaryClass | dbRefClass | int64Class | minKeyClass | maxKeyClass
  | regexClass | timestampClass | decimal128Class | datetimeClass => .constructor
  | fromDatetime | floatFunction | intFunction | compileFunction => .function
  | _ => .none

/-- The name of the type of a call, where it is not the type that is called. -/
def returns? : ValueType → Option String
  | fromDatetime => some "ObjectId"
  | floatFunction => some "_decimal"
  | intFunction => some "_integer"
  | datetimeClass => some "Date"
  | compileFunction => some "_regex"
  | _ => none

/-- The name of the type of a call. -/
def resultName (t : ValueType) : String := t.returns?.getD t.name

/-- The members of a type. -/
def members : ValueType → List (String × ValueType)
  | objectIdClass => [("from_datetime", fromDatetime)]
  | reModule => ("compile", compileFunction) :: RegexFlag.all.map fun f => (f.label, regexFlag f)
  | _ => []

/-- A member of a type by its name. -/
def member? (t : ValueType) (name : String) : Option ValueType := t.members.lookup name

/-- The letter of a regular expression option. -/
def flag? : ValueType → Option Char
  | regexFlag f => some f.letter
  | _ => none

/-- Types of numbers. -/
def isNumeric : ValueType → Bool
  | integer | decimal | hex | octal | long | numeric => true
  | _ => false

/-- Types that stand for a number where any number will do. -/
def isNumericWrapper (t : ValueType) : Bool := t = int64Class

/-- Types whose members are all known. -/
def isDomain (t : ValueType) : Bool :=
  !"_".toList.isPrefixOf t.name.toList || t.flag?.isSome

/-- The basic types. -/
def basic : List ValueType :=
  [integer, long, decimal, hex, octal, numeric, string, regex, array, object, null, undefined, bool,
   binary, date]

/-- The types that a source can name. -/
def symbols : List ValueType :=
  [codeClass, objectIdClass, binaryClass, dbRefClass, floatFunction, intFunction, int64Class,
   minKeyClass, maxKeyClass, regexClass, timestampClass, decimal128Class, datetimeClass, reModule]

/-- The types that stand for their names: of the options of a regular expression the first. -/
def catalogue : List ValueType :=
  basic ++ symbols ++ [fromDatetime, compileFunction, regexFlag .i]

/-- The type that is known under a name. -/
def ofName? (name : String) : Option ValueType := catalogue.find? (·.name == name)

/-- The type that a source names. -/
def ofSymbol? (name : String) : Option ValueType := symbols.find? (·.name == name)

end ValueType

end QueryScribe
