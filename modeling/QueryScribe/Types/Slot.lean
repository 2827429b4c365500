import QueryScribe.Types.ValueType

/-!
# Parameters of calls

A slot lists what one parameter of a call accepts: names of types, and whether the argument may be
left out.
-/

namespace QueryScribe

/-- One thing that a slot accepts. -/
inductive Choice
  /-- No argument at all. -/
  | absent
  /-- An argument of the type with this name. -/
  | named (name : String)
deriving DecidableEq, Repr

/-- What one parameter accepts. -/
abbrev Slot := List Choice

namespace Slot

/-- A slot for some types. -/
def of (types : List ValueType) : Slot := types.map fun t => .named t.name

/-- A slot for some types that may be left out. -/
def optional (types : List ValueType) : Slot := of types ++ [.absent]

/-- Whether the argument may be left out. -/
def mayBeAbsent (s : Slot) : Bool := s.contains .absent

/-- Whether a slot accepts a type by its name. -/
def accepts (s : Slot) (t : ValueType) : Bool := s.contains (.named t.name)

/-- The names of the types of numbers. -/
def numericNames : List String := ["_integer", "_decimal", "_hex", "_octal", "_long", "_numeric"]

/-- The name of the first numeric type that a slot accepts. -/
def numericName? (s : Slot) : Option String :=
  s.findSome? fun
    | .absent => none
    | .named name => if numericNames.contains name then some name else none

/-- The choices as messages show them. -/
def labels (s : Slot) : List String :=
  s.map fun
    | .absent => "[optional]"
    | .named name => name

end Slot

namespace ValueType

/-- The parameters of a type that can be called. -/
def parameters : ValueType → List Slot
  | codeClass => [.of [string], .optional [object]]
  | objectIdClass => [.optional [string]]
  | fromDatetime => [.of [date, numeric]]
  | binaryClass => [.of [string], .optional [numeric]]
  | dbRefClass => [.of [string], .of [objectIdClass, string, numeric, object], .optional [string]]
  | floatFunction => [.optional [decimal, string]]
  | intFunction => [.optional [integer, string]]
  | int64Class => [.optional [long, string]]
  | regexClass => [.of [string], .optional [string]]
  | timestampClass => [.of [integer], .of [integer]]
  | decimal128Class => [.of [string, numeric]]
  | datetimeClass => List.replicate 7 (.optional [integer])
  | compileFunction => [.of [string], .optional [regexFlag .i]]
  | _ => []

end ValueType

end QueryScribe
