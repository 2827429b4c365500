import QueryScribe.Literal.Value
import QueryScribe.Target.Basic

/-!
# The Java target
-/

namespace QueryScribe.Java

/-- A new document, its entries added one after the other. -/
def document : List (String × String) → String
  | [] => "new Document()"
  | (key, value) :: rest =>
    "new Document(" ++ key ++ ", " ++ value ++ ")" ++
      String.join (rest.map fun (k, v) => ".append(" ++ k ++ ", " ++ v ++ ")")

/-- Literals that are written in another way than in the source. -/
def literal : ValueType → Option (String → Except Fault String)
  | .long => some fun text => .ok (text ++ "L")
  | .octal => some fun text => do
    let n ← (Literal.number text .octal).mapError .ofCause
    n.write.mapError .conversion
  | .bool => some fun text => .ok (String.ofList (text.toList.map Char.toLower))
  | .null => some fun _ => .ok "new BsonNull()"
  | _ => none

/-- Types with other names than in the source. -/
def symbol : ValueType → Option String
  | .regexClass => some "BsonRegularExpression"
  | .timestampClass => some "BSONTimestamp"
  | .datetimeClass => some "java.util.Date"
  | _ => none

/-- The constant for an option of a regular expression. -/
def patternFlag? : RegexFlag → Option String
  | .i | .ignoreCase => some "Pattern.CASE_INSENSITIVE"
  | .m | .multiLine => some "Pattern.MULTILINE"
  | .s | .dotAll => some "Pattern.DOTALL"
  | .x | .verbose => some "Pattern.COMMENTS"
  | .u | .unicode => some "Pattern.UNICODE_CASE"
  | _ => none

/-- Options of regular expressions. -/
def member : ValueType → Option (String → String → String)
  | .regexFlag f => some fun owner name => (patternFlag? f).getD (owner ++ "." ++ name)
  | _ => none

/-- Conversions to numbers. Text is parsed, and numbers are marked as what they become. -/
def number : ValueType → Option (Option (String × ValueType) → String)
  | .floatFunction => some fun
    | none => "0.0d"
    | some (arg, .string) => "Double.parseDouble(" ++ arg ++ ")"
    | some (arg, _) => arg ++ "d"
  | .intFunction => some fun
    | none => "0"
    | some (arg, .string) => "Integer.parseInt(" ++ arg ++ ")"
    | some (arg, _) => arg
  | .int64Class => some fun
    | none => "0L"
    | some (arg, _) => arg
  | _ => none

/-- References name the database first. -/
def other : ValueType → Option (String → List String → String)
  | .dbRefClass => some fun callee args =>
    callee ++ "(" ++ ", ".intercalate (match args with
      | [collection, id, database] => [database, collection, id]
      | _ => args) ++ ")"
  | _ => none

/-- The text with its first backslash twice, of those that no slash follows. -/
def doubleFirstBackslash : List Char → List Char
  | [] => []
  | c :: cs =>
    if c = '\\' && cs.head? ≠ some '/' then '\\' :: '\\' :: cs else c :: doubleFirstBackslash cs

/-- A body between double quotes. -/
def quote (body : List Char) : String := String.ofList (Quoting.double body)

/-- How calls are written. -/
def calls : CallForms where
  number := number
  code := some fun code => fun
    | none => "Code(" ++ code ++ ")"
    | some scope => "CodeWithScope(" ++ code ++ ", " ++ scope ++ ")"
  objectId := some fun callee hex => callee ++ "(" ++ hex.getD "" ++ ")"
  fromDatetime := some fun _ arg isNumber =>
    if isNumber then "new ObjectId(new java.util.Date(" ++ arg ++ "))"
    else "new ObjectId(" ++ arg ++ ")"
  decimal128 := some fun _ value => "Decimal128.parse(" ++ value ++ ")"
  datetime := some fun callee => fun
    | none => callee ++ "()"
    | some moment => callee ++ "(" ++ Numeral.decimal moment.epochMillis ++ "L)"
  compile := some fun _ _ pattern flags =>
    let marks := if flags.isEmpty then "" else "(?" ++ flags ++ ")"
    "Pattern.compile(" ++ quote (doubleFirstBackslash pattern.toList ++ marks.toList) ++ ")"
  other := other

/-- Constructors make new instances, but for those that are factories or plain literals. -/
def construct (type : ValueType) (call : String) : String :=
  match type with
  | .floatFunction | .intFunction | .int64Class | .decimal128Class => call
  | _ => "new " ++ call

/-- The helpers that build queries. -/
def helpers : Helpers where
  filters :=
    Helpers.operators .filters
      ["eq", "ne", "gt", "gte", "lt", "lte", "in", "nin", "all", "size", "exists", "type",
       "bitsAllClear", "bitsAllSet", "bitsAnyClear", "bitsAnySet", "and", "or", "nor", "not",
       "expr", "where", "text", "regex", "mod", "elemMatch", "geoWithin", "geoIntersects"] ++
    [("eq", ⟨.filters, "eq", .function⟩),
     ("$box", ⟨.filters, "geoWithinBox", .function⟩),
     ("$polygon", ⟨.filters, "geoWithinPolygon", .function⟩),
     ("$center", ⟨.filters, "geoWithinCenter", .function⟩),
     ("$centerSphere", ⟨.filters, "geoWithinCenterSphere", .function⟩),
     ("$near", ⟨.filters, "near", .function⟩),
     ("$nearSphere", ⟨.filters, "nearSphere", .function⟩)]
  aggregates :=
    Helpers.operators .aggregates
      ["count", "facet", "graphLookup", "group", "limit", "lookup", "match", "out", "project",
       "replaceRoot", "sample", "skip", "sort", "sortByCount", "unwind"]
  accumulators :=
    Helpers.operators .accumulators
      ["sum", "avg", "first", "last", "max", "min", "push", "addToSet", "stdDevPop", "stdDevSamp"]
  projections := Helpers.named .projections .function ["fields", "include", "exclude", "excludeId"]
  sorts := Helpers.named .sorts .function ["ascending", "descending", "metaTextScore", "orderBy"]
  geojson :=
    Helpers.named .geojson .constructor
      ["Point", "MultiPoint", "LineString", "MultiLineString", "Polygon", "MultiPolygon",
       "GeometryCollection", "PolygonCoordinates", "Position"]
  model :=
    [("Facet", ⟨.model, "Facet", .constructor⟩),
     ("GraphLookupOptions", ⟨.model, "GraphLookupOptions", .options⟩)]

/-- What is imported for a type. -/
def importLine? : Int → Option String
  | 8 => some "import java.util.regex.Pattern;"
  | 9 => some "import java.util.Arrays;"
  | 10 => some "import org.bson.Document;"
  | 11 => some "import org.bson.BsonNull;"
  | 100 => some "import org.bson.types.Code;"
  | 101 => some "import org.bson.types.ObjectId;"
  | 103 => some "import com.mongodb.DBRef;"
  | 107 => some "import org.bson.types.MinKey;"
  | 108 => some "import org.bson.types.MaxKey;"
  | 109 => some "import org.bson.BsonRegularExpression;"
  | 110 => some "import org.bson.types.BSONTimestamp;"
  | 112 => some "import org.bson.types.Decimal128;"
  | 113 => some "import org.bson.types.CodeWithScope;"
  | _ => none

/-- Where the helpers of a family are imported from. -/
def helperImport? : Int → Option String
  | 300 => some "import static com.mongodb.client.model.Filters."
  | 301 => some "import static com.mongodb.client.model.Aggregates."
  | 302 => some "import static com.mongodb.client.model.Accumulators."
  | 303 => some "import static com.mongodb.client.model.Projections."
  | 304 => some "import static com.mongodb.client.model.Sorts."
  | 305 => some "import com.mongodb.client.model.geojson."
  | 306 => some "import com.mongodb.client.model."
  | _ => none

/-- Puts a name into an ascending list, unless it is in it. -/
def insertName (name : String) : List String → List String
  | [] => [name]
  | other :: rest =>
    if name < other then name :: other :: rest
    else if name = other then other :: rest
    else other :: insertName name rest

/-- Names in ascending order, each once. -/
def sortedNames (names : List String) : List String := names.foldr insertName []

/-- The lines for a code. Helpers have one line each. -/
def fragment (code : Int) : Option (Option (List String) → String) :=
  match importLine? code, helperImport? code with
  | some line, _ => some fun _ => line
  | none, some start => some fun names =>
    "\n".intercalate ((sortedNames (names.getD [])).map fun name => start ++ name ++ ";")
  | none, none => none

end QueryScribe.Java

namespace QueryScribe

/-- Code for the Java driver, with query builders. -/
def Target.java : Target where
  name := "java"
  literal := Java.literal
  string := some fun body => Java.quote body.toList
  document := some Java.document
  array := some fun items => "Arrays.asList(" ++ ", ".intercalate items ++ ")"
  symbol := Java.symbol
  member := Java.member
  calls := Java.calls
  construct := Java.construct
  equality := fun op a b =>
    a ++ (match op with
      | .equal | .same => " == "
      | .unequal | .distinct => " != ") ++ b
  membership := fun op a b =>
    (match op with
      | .among => ""
      | .notAmong => "!") ++ b ++ ".contains(" ++ a ++ ")"
  conjunction := " && ".intercalate
  disjunction := " || ".intercalate
  negation := ("!" ++ ·)
  power := fun base exponent => "(long) Math.pow(" ++ base ++ ", " ++ exponent ++ ")"
  floorDivision := fun a b => "Math.floorDiv(" ++ a ++ ", " ++ b ++ ")"
  regexFlags :=
    ("imsxu".toList.map fun c => (c, String.ofList [c])) ++ [('a', ""), ('l', ""), ('g', "")]
  bsonRegexFlags := acceptedRegexFlags.map fun c => (c, String.ofList [c])
  helpers := some Java.helpers
  imports := { fragment := Java.fragment }

end QueryScribe
