import QueryScribe.Types.ValueType

/-!
# Calls with a treatment of their own
-/

namespace QueryScribe

/-- The ways to treat a call that needs more than its arguments checked. -/
inductive Treatment
  | number | regex | code | datetime | fromDatetime | binary | compile | objectId | decimal128
deriving DecidableEq, Repr

/-- The name of a treatment in the log. -/
def Treatment.label : Treatment → String
  | number => "_process_number"
  | regex => "_process_regex"
  | code => "_process_code"
  | datetime => "_process_datetime"
  | fromDatetime => "_process_from_datetime"
  | binary => "_process_binary"
  | compile => "_process_re_compile"
  | objectId => "_emit_object_id"
  | decimal128 => "_emit_decimal128"

/-- The treatment of calls of a type. -/
def ValueType.treatment? : ValueType → Option Treatment
  | intFunction | floatFunction | int64Class => some .number
  | regexClass => some .regex
  | codeClass => some .code
  | datetimeClass => some .datetime
  | fromDatetime => some .fromDatetime
  | binaryClass => some .binary
  | compileFunction => some .compile
  | objectIdClass => some .objectId
  | decimal128Class => some .decimal128
  | _ => none

end QueryScribe
