import QueryScribe.Target.Basic

/-!
# The Python target
-/

namespace QueryScribe.Python

/-- Components without the zeros at their end, but at least three. -/
def shortened (parts : List Int) : List Int :=
  parts.take 3 ++ ((parts.drop 3).reverse.dropWhile (· = 0)).reverse

/-- How calls are written. -/
def calls : CallForms where
  fromDatetime := some fun callee arg isNumber =>
    if isNumber then
      callee ++ "(datetime.datetime.fromtimestamp(" ++ arg ++ ", datetime.timezone.utc))"
    else callee ++ "(" ++ arg ++ ")"
  datetime := some fun _ => fun
    | none => "datetime.datetime.now(datetime.timezone.utc)"
    | some moment =>
      "datetime.datetime(" ++ ", ".intercalate ((shortened moment.parts).map Numeral.decimal) ++
        ", tzinfo=datetime.timezone.utc)"
  compile := some fun callee written _ flags =>
    if flags.isEmpty then callee ++ "(" ++ written ++ ")"
    else
      let names := flags.toList.map fun c => "re." ++ String.ofList [c.toUpper]
      callee ++ "(" ++ written ++ ", " ++ " | ".intercalate names ++ ")"

/-- The modules that are imported for a code. -/
def moduleImport? : Int → Option String
  | 8 => some "import re"
  | 200 => some "import datetime"
  | _ => none

/-- The names that are imported for a code. -/
def nameImport? : Int → Option String
  | 100 => some "Code"
  | 101 => some "ObjectId"
  | 103 => some "DBRef"
  | 106 => some "Int64"
  | 107 => some "MinKey"
  | 108 => some "MaxKey"
  | 109 => some "Regex"
  | 110 => some "Timestamp"
  | 112 => some "Decimal128"
  | _ => none

/-- The modules first, then one line for all names. -/
def importBlock (fragments : List (Int × String)) : String :=
  let texts (table : Int → Option String) : List String :=
    Usage.firsts ((fragments.filter fun (code, _) => (table code).isSome).map (·.2))
  let names := texts nameImport?
  "\n".intercalate (texts moduleImport? ++
    if names.isEmpty then [] else ["from bson import " ++ ", ".intercalate names])

end QueryScribe.Python

namespace QueryScribe

/-- Code for the Python driver, which takes plain documents. -/
def Target.python : Target where
  name := "python"
  string := some fun body => String.ofList (Quoting.single body.toList)
  document := some fun entries =>
    "\x7b" ++ ", ".intercalate (entries.map fun (k, v) => k ++ ": " ++ v) ++ "\x7d"
  array := some fun items => "[" ++ ", ".intercalate items ++ "]"
  calls := Python.calls
  equality := fun op a b =>
    a ++ (match op with
      | .equal => " == "
      | .unequal => " != "
      | .same => " is "
      | .distinct => " is not ") ++ b
  membership := fun op a b =>
    a ++ (match op with
      | .among => " in "
      | .notAmong => " not in ") ++ b
  regexFlags := "imsxual".toList.map fun c => (c, String.ofList [c])
  bsonRegexFlags := acceptedRegexFlags.map fun c => (c, String.ofList [c])
  imports :=
    { fragment := fun code =>
        ((Python.moduleImport? code) <|> Python.nameImport? code).map fun text _ => text
      block := some Python.importBlock }

end QueryScribe
